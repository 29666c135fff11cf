/-
# The DMA controller (`kernel/drivers/dma.c`)

`dma_start_transfer` programs a channel of an 8237 through its 8-bit ports: a byte of the address, then the
other, then the same for the count, with one flip-flop for all of them.  `program_regs` says that this part
is right, whatever state the controller was in: the channel has the address modulo 64 KB and the count, and no
other channel has lost its own.

The rest is not.

* The controller has 16 bits of address.  The other eight are in a page register, which this driver never
  writes: the bytes of a transfer are the caller's if and only if the register happens to hold the right page
  and the buffer does not cross its end (`transfer_exact_iff`).
* Port 0x0A is taken for a register with a bit for each channel.  It is a command: bits 0 and 1 name ONE
  channel and bit 2 says whether it is masked.  Where the port reads as the four mask bits, no transfer ever
  starts on the channel it was asked for, in any run; a transfer on channel 2 opens channel 3
  (`wrong_channel`).
-/
import JarvOs.Lib.Trace

namespace JarvOs.Drivers.Dma

open JarvOs.Lib

/-! ## 1. The controller -/

/-- A channel.  Its page register is not part of the 8237. -/
structure Channel where
  addr : BitVec 16
  count : BitVec 16
  mode : BitVec 8
  masked : Bool
  page : BitVec 8
deriving DecidableEq, Repr

/-- An 8237.  `flipFlop` says that the next byte is a high one. -/
structure Chip where
  chan : Fin 4 → Channel
  flipFlop : Bool
  status : BitVec 8

namespace Chip

/-- One byte of a 16-bit register. -/
def putByte (high : Bool) (w : BitVec 16) (val : BitVec 8) : BitVec 16 :=
  if high then val ++ w.extractLsb' 0 8 else w.extractLsb' 8 8 ++ val

/-- One channel is changed. -/
def modify (d : Chip) (i : Fin 4) (f : Channel → Channel) : Chip :=
  { d with chan := Function.update d.chan i (f (d.chan i)) }

/-- The channel a command names. -/
def named (val : BitVec 8) : Fin 4 := ⟨val.toNat % 4, Nat.mod_lt _ (by decide)⟩

/-- `DMA1_CHANNEL0_ADDR` to `DMA1_CHANNEL3_ADDR` -/
def outAddr (d : Chip) (i : Fin 4) (val : BitVec 8) : Chip :=
  { d.modify i (fun c => { c with addr := putByte d.flipFlop c.addr val }) with flipFlop := !d.flipFlop }

/-- `DMA1_CHANNEL0_COUNT` to `DMA1_CHANNEL3_COUNT` -/
def outCount (d : Chip) (i : Fin 4) (val : BitVec 8) : Chip :=
  { d.modify i (fun c => { c with count := putByte d.flipFlop c.count val }) with flipFlop := !d.flipFlop }

/-- `DMA1_MASK`, port 0x0A -/
def outMask (d : Chip) (val : BitVec 8) : Chip :=
  d.modify (named val) (fun c => { c with masked := val.getLsbD 2 })

/-- `DMA1_MODE`, port 0x0B -/
def outMode (d : Chip) (val : BitVec 8) : Chip := d.modify (named val) (fun c => { c with mode := val })

/-- `DMA1_CLEAR_BYTE_FLIP`, port 0x0C -/
def clearFlipFlop (d : Chip) : Chip := { d with flipFlop := false }

/-- `DMA1_MASTER_CLEAR`, port 0x0D -/
def masterClear (d : Chip) : Chip :=
  ⟨fun i => { d.chan i with masked := true }, false, 0#8⟩

/-- `DMA1_WRITE_MASK`, port 0x0F -/
def outAllMasks (d : Chip) (val : BitVec 8) : Chip :=
  { d with chan := fun i => { d.chan i with masked := val.getLsbD i.val } }

/-- The four mask bits, and what else a read of port 0x0A may give. -/
def ReadsMasks (d : Chip) (val : BitVec 8) : Prop := ∀ i : Fin 4, val.getLsbD i.val = (d.chan i).masked

/-- The addresses of a transfer, one after the other. -/
def cell (d : Chip) (i : Fin 4) (k : Nat) : Nat :=
  (d.chan i).page.toNat * 65536 + ((d.chan i).addr.toNat + k) % 65536

end Chip

/-! ## 2. The code -/

/-- The controller and `dma_initialized`. -/
structure Driver where
  chip : Chip
  initialized : Bool

/-- `dma_init` -/
def dmaInit (d : Driver) : Driver :=
  ⟨((d.chip.masterClear).clearFlipFlop).outAllMasks 0x0F#8, true⟩

/-- `if (!dma_initialized) dma_init()` -/
def ensure (d : Driver) : Driver := if d.initialized then d else dmaInit d

/-- `dma_alloc_channel` -/
def dmaAllocChannel (d : Driver) : Int × Driver := (0, ensure d)

/-- `dma_free_channel`, where port 0x0A reads as `mask`. -/
def dmaFreeChannel (d : Driver) (mask : BitVec 8) (channel : Int) : Driver :=
  if channel < 0 ∨ 3 < channel then d
  else { d with chip := d.chip.outMask (mask ||| BitVec.twoPow 8 channel.toNat) }

/-- The accesses of `dma_start_transfer` for channel `i`. -/
def program (d : Chip) (oldMask : BitVec 8) (i : Fin 4) (src : BitVec 32) (len : Nat) (mode : BitVec 16) :
    Chip :=
  let mask := BitVec.twoPow 8 i.val
  let count := BitVec.ofNat 16 (len - 1)
  let d := d.outMask (oldMask ||| mask)
  let d := d.clearFlipFlop
  let d := d.outMode ((mode ||| BitVec.ofNat 16 i.val).setWidth 8)
  let d := d.outAddr i (src.setWidth 8)
  let d := d.outAddr i ((src >>> 8).setWidth 8)
  let d := d.outCount i (count.setWidth 8)
  let d := d.outCount i ((count >>> 8).setWidth 8)
  let d := d.outMode ((mode ||| BitVec.ofNat 16 i.val).setWidth 8)
  d.outMask (oldMask &&& ~~~mask)

/-- `dma_start_transfer`, where port 0x0A reads as `oldMask`. -/
def dmaStartTransfer (d : Driver) (oldMask : BitVec 8) (channel : Int) (src : BitVec 32) (len : Nat)
    (mode : BitVec 16) : Int × Driver :=
  let d := ensure d
  if h : channel < 0 ∨ 3 < channel then (-1, d)
  else if len = 0 ∨ 65536 < len then (-1, d)
  else (0, { d with chip := program d.chip oldMask ⟨channel.toNat, by omega⟩ src len mode })

/-- `dma_is_complete` -/
def dmaIsComplete (d : Driver) (channel : Int) : Int :=
  if d.initialized = false ∨ channel < 0 ∨ 3 < channel then -1
  else if d.chip.status &&& BitVec.twoPow 8 (channel.toNat + 4) ≠ 0#8 then 1 else 0

/-! ## 3. Programming a channel -/

variable {d : Chip} {i j : Fin 4} {oldMask : BitVec 8} {src : BitVec 32} {len : Nat} {mode : BitVec 16}

@[simp] theorem modify_same (d : Chip) (i : Fin 4) (f : Channel → Channel) :
    (d.modify i f).chan i = f (d.chan i) := Function.update_self i _ _

theorem modify_ne (h : j ≠ i) (d : Chip) (f : Channel → Channel) : (d.modify i f).chan j = d.chan j :=
  Function.update_of_ne h _ _

/-- What a channel is programmed to. -/
def Channel.regs (c : Channel) : BitVec 16 × BitVec 16 × BitVec 8 := (c.addr, c.count, c.page)

theorem modify_regs {f : Channel → Channel} (hf : ∀ c, (f c).regs = c.regs) (d : Chip) (i j : Fin 4) :
    ((d.modify i f).chan j).regs = (d.chan j).regs := by
  by_cases h : j = i
  · rw [h, modify_same, hf]
  · rw [modify_ne h]

theorem modify_masked {f : Channel → Channel} (hf : ∀ c, (f c).masked = c.masked) (d : Chip) (i j : Fin 4) :
    ((d.modify i f).chan j).masked = (d.chan j).masked := by
  by_cases h : j = i
  · rw [h, modify_same, hf]
  · rw [modify_ne h]

@[simp] theorem outMask_regs (d : Chip) (val : BitVec 8) (j : Fin 4) :
    ((d.outMask val).chan j).regs = (d.chan j).regs := by
  refine modify_regs ?_ d _ j
  exact fun _ => rfl

@[simp] theorem outMode_regs (d : Chip) (val : BitVec 8) (j : Fin 4) :
    ((d.outMode val).chan j).regs = (d.chan j).regs := by
  refine modify_regs ?_ d _ j
  exact fun _ => rfl

theorem outAddr_regs (d : Chip) (i j : Fin 4) (val : BitVec 8) : ((d.outAddr i val).chan j).regs =
    if j = i then (Chip.putByte d.flipFlop (d.chan i).regs.1 val, (d.chan i).regs.2)
    else (d.chan j).regs := by
  simp only [Chip.outAddr]
  split_ifs with h
  · rw [h, modify_same]
    rfl
  · rw [modify_ne h]

theorem outCount_regs (d : Chip) (i j : Fin 4) (val : BitVec 8) : ((d.outCount i val).chan j).regs =
    if j = i then
      ((d.chan i).regs.1, Chip.putByte d.flipFlop (d.chan i).regs.2.1 val, (d.chan i).regs.2.2)
    else (d.chan j).regs := by
  simp only [Chip.outCount]
  split_ifs with h
  · rw [h, modify_same]
    rfl
  · rw [modify_ne h]

/-- The low byte, then the high byte. -/
theorem putBytes {w : Nat} (r : BitVec 16) (v : BitVec w) :
    Chip.putByte true (Chip.putByte false r (v.setWidth 8)) ((v >>> 8).setWidth 8) = v.setWidth 16 := by
  simp only [Chip.putByte, if_true, Bool.false_eq_true, if_false]
  ext k hk
  simp only [BitVec.getElem_append, BitVec.getElem_extractLsb', BitVec.getLsbD_append,
    BitVec.getElem_setWidth, BitVec.getLsbD_setWidth, BitVec.getLsbD_ushiftRight, Nat.zero_add]
  split_ifs with h8
  · simp [h8]
  · rw [Nat.add_sub_cancel' (by omega)]

/-- An address goes in with the flip-flop clear. -/
theorem outAddrs_regs {d : Chip} (hclear : d.flipFlop = false) (i j : Fin 4) (v : BitVec 32) :
    (((d.outAddr i (v.setWidth 8)).outAddr i ((v >>> 8).setWidth 8)).chan j).regs =
      if j = i then (v.setWidth 16, (d.chan i).regs.2) else (d.chan j).regs := by
  have hset : (d.outAddr i (v.setWidth 8)).flipFlop = true := by simp [Chip.outAddr, hclear]
  rw [outAddr_regs, hset]
  split_ifs with h
  · rw [outAddr_regs, if_pos rfl, hclear]
    simp only [putBytes]
  · rw [outAddr_regs, if_neg h]

/-- And so does a count. -/
theorem outCounts_regs {d : Chip} (hclear : d.flipFlop = false) (i j : Fin 4) (v : BitVec 16) :
    (((d.outCount i (v.setWidth 8)).outCount i ((v >>> 8).setWidth 8)).chan j).regs =
      if j = i then ((d.chan i).regs.1, v, (d.chan i).regs.2.2) else (d.chan j).regs := by
  have hset : (d.outCount i (v.setWidth 8)).flipFlop = true := by simp [Chip.outCount, hclear]
  rw [outCount_regs, hset]
  split_ifs with h
  · rw [outCount_regs, if_pos rfl, hclear]
    simp only [putBytes, BitVec.setWidth_eq]
  · rw [outCount_regs, if_neg h]

/-- **A channel is programmed** to the address modulo 64 KB and to the count, and the others are left alone. -/
theorem program_regs (d : Chip) (oldMask : BitVec 8) (i : Fin 4) (src : BitVec 32) (len : Nat)
    (mode : BitVec 16) (j : Fin 4) : ((program d oldMask i src len mode).chan j).regs =
      if j = i then (src.setWidth 16, BitVec.ofNat 16 (len - 1), (d.chan i).page) else (d.chan j).regs := by
  rw [program, outMask_regs, outMode_regs, outCounts_regs rfl, outAddrs_regs rfl, outAddrs_regs rfl]
  simp only [outMode_regs, Chip.clearFlipFlop, outMask_regs, if_true]
  split_ifs <;> rfl

/-! ## 4. Which bytes are transferred -/

/-- `dma_start_transfer` with arguments it takes. -/
theorem dmaStartTransfer_eq (d : Driver) (oldMask : BitVec 8) (i : Fin 4) (src : BitVec 32)
    (mode : BitVec 16) (h0 : 0 < len) (hlen : len ≤ 65536) :
    dmaStartTransfer d oldMask (i.val : Int) src len mode =
      (0, { ensure d with chip := program (ensure d).chip oldMask i src len mode }) := by
  have hi := i.isLt
  rw [dmaStartTransfer]
  simp only
  rw [dif_neg (by omega), if_neg (by omega)]
  simp only [Int.toNat_natCast, Fin.eta]

theorem ensure_page (d : Driver) (i : Fin 4) : ((ensure d).chip.chan i).page = (d.chip.chan i).page := by
  rw [ensure]
  split_ifs <;> rfl

/-- **The bytes of a transfer** are as many as were asked for.  They are those that were asked for if and only
if the page register holds their page already, and they are all in it. -/
theorem transfer_exact_iff (d : Driver) (oldMask : BitVec 8) (i : Fin 4) (src : BitVec 32) (mode : BitVec 16)
    (h0 : 0 < len) (hlen : len ≤ 65536) {r : Int} {d' : Driver}
    (hcall : dmaStartTransfer d oldMask (i.val : Int) src len mode = (r, d')) :
    r = 0 ∧ (d'.chip.chan i).count.toNat + 1 = len ∧
    ((∀ k < len, d'.chip.cell i k = src.toNat + k) ↔
      (d.chip.chan i).page.toNat = src.toNat / 65536 ∧ src.toNat % 65536 + len ≤ 65536) := by
  rw [dmaStartTransfer_eq d oldMask i src mode h0 hlen] at hcall
  obtain ⟨rfl, rfl⟩ := Prod.mk.inj hcall
  have hregs := program_regs (ensure d).chip oldMask i src len mode i
  rw [if_pos rfl] at hregs
  simp only [Channel.regs, Prod.mk.injEq] at hregs
  obtain ⟨haddr, hcount, hpage⟩ := hregs
  rw [ensure_page] at hpage
  have hcell : ∀ k, (program (ensure d).chip oldMask i src len mode).cell i k =
      (d.chip.chan i).page.toNat * 65536 + (src.toNat % 65536 + k) % 65536 := by
    intro k
    rw [Chip.cell, haddr, hpage, BitVec.toNat_setWidth]
  refine ⟨rfl, ?_, ?_⟩
  · simp only
    rw [hcount, BitVec.toNat_ofNat]
    omega
  · simp only [hcell]
    constructor
    · intro h
      have hfirst := h 0 h0
      refine ⟨by omega, ?_⟩
      -- the byte behind the end of the page would be the first byte of the page
      by_contra hcross
      have hwrap := h (65536 - src.toNat % 65536) (by omega)
      omega
    · rintro ⟨hp, hfit⟩ k hk
      rw [hp, Nat.mod_eq_of_lt (by omega)]
      omega

/-! ## 5. Which channel is opened -/

/-- What the driver writes to port 0x0A, if the port reads with bits 0 to 2 set. -/
theorem mask_words : ∀ old : BitVec 8, old.getLsbD 0 = true → old.getLsbD 1 = true → old.getLsbD 2 = true →
    ∀ i : Fin 4, Chip.named (old ||| BitVec.twoPow 8 i) = 3 ∧
      (old ||| BitVec.twoPow 8 i).getLsbD 2 = true ∧
      Chip.named (old &&& ~~~BitVec.twoPow 8 i) = (if i = 0 then 2 else if i = 1 then 1 else 3) ∧
      (old &&& ~~~BitVec.twoPow 8 i).getLsbD 2 = decide (i ≠ 2) := by
  decide +kernel

theorem outMask_masked (d : Chip) (val : BitVec 8) (j : Fin 4) :
    ((d.outMask val).chan j).masked = if j = Chip.named val then val.getLsbD 2 else (d.chan j).masked := by
  split_ifs with h
  · rw [Chip.outMask, h, modify_same]
  · rw [Chip.outMask, modify_ne h]

/-- The rest of the programming leaves the masks alone. -/
theorem program_masked (d : Chip) (oldMask : BitVec 8) (i : Fin 4) (src : BitVec 32) (len : Nat)
    (mode : BitVec 16) (j : Fin 4) : ((program d oldMask i src len mode).chan j).masked =
      (((d.outMask (oldMask ||| BitVec.twoPow 8 i)).outMask (oldMask &&& ~~~BitVec.twoPow 8 i)).chan j).masked := by
  have hmode : ∀ (d : Chip) v, ((d.outMode v).chan j).masked = (d.chan j).masked :=
    fun d v => modify_masked (f := fun c => { c with mode := v }) (fun _ => rfl) d _ j
  have haddr : ∀ (d : Chip) v, ((d.outAddr i v).chan j).masked = (d.chan j).masked :=
    fun d v => modify_masked (f := fun c => { c with addr := Chip.putByte d.flipFlop c.addr v })
      (fun _ => rfl) d i j
  have hcount : ∀ (d : Chip) v, ((d.outCount i v).chan j).masked = (d.chan j).masked :=
    fun d v => modify_masked (f := fun c => { c with count := Chip.putByte d.flipFlop c.count v })
      (fun _ => rfl) d i j
  rw [program, outMask_masked, outMask_masked, hmode, hcount, hcount, haddr, haddr, hmode]
  rfl

/-- Channels 0 to 2 are masked. -/
def LowMasked (d : Driver) : Prop := d.initialized = true ∧ ∀ j : Fin 4, j ≠ 3 → (d.chip.chan j).masked = true

/-- **The channel that is opened.** -/
theorem LowMasked.start {d : Driver} (h : LowMasked d) (hread : d.chip.ReadsMasks oldMask) (i j : Fin 4)
    (src : BitVec 32) (len : Nat) (mode : BitVec 16) :
    ((program d.chip oldMask i src len mode).chan j).masked = !(decide (i = 2) && decide (j = 3)) := by
  have hbit : ∀ k : Fin 4, k ≠ 3 → oldMask.getLsbD k.val = true := fun k hk => (hread k).trans (h.2 k hk)
  obtain ⟨hset, hset2, hclear, hclear2⟩ :=
    mask_words oldMask (hbit 0 (by decide)) (hbit 1 (by decide)) (hbit 2 (by decide)) i
  rw [program_masked, outMask_masked, outMask_masked, hset, hset2, hclear, hclear2]
  by_cases hj : j = 3
  · subst hj
    rw [if_pos rfl]
    fin_cases i <;> rfl
  · rw [if_neg hj, h.2 j hj]
    fin_cases i <;> simp [hj]

/-- Calls of the driver, with what port 0x0A reads as. -/
inductive Op
  | alloc
  | start (oldMask : BitVec 8) (channel : Int) (src : BitVec 32) (len : Nat) (mode : BitVec 16)
  | free (mask : BitVec 8) (channel : Int)

/-- One call. -/
def step (d : Driver) : Op → Option Driver
  | .alloc => some (dmaAllocChannel d).2
  | .start oldMask channel src len mode => some (dmaStartTransfer d oldMask channel src len mode).2
  | .free mask channel => some (dmaFreeChannel d mask channel)

/-- The port reads as the four mask bits. -/
def MasksRead (d : Driver) : Op → Prop
  | .alloc => True
  | .start oldMask _ _ _ _ => d.chip.ReadsMasks oldMask
  | .free mask _ => d.chip.ReadsMasks mask

/-- **One call** leaves channels 0 to 2 masked. -/
theorem lowMasked_step {d d' : Driver} {o : Op} (h : LowMasked d) (hread : MasksRead d o)
    (hstep : step d o = some d') : LowMasked d' := by
  have hensure : ensure d = d := by rw [ensure, if_pos h.1]
  cases o with
  | alloc =>
    obtain rfl := Option.some.inj hstep
    rw [dmaAllocChannel, hensure]
    exact h
  | start oldMask channel src len mode =>
    obtain rfl := Option.some.inj hstep
    rw [dmaStartTransfer, hensure]
    split_ifs with hchannel hlen
    · exact h
    · exact h
    · refine ⟨h.1, fun j hj => ?_⟩
      rw [h.start hread]
      simp [hj]
  | free mask channel =>
    obtain rfl := Option.some.inj hstep
    rw [dmaFreeChannel]
    split_ifs with hchannel
    · exact h
    · refine ⟨h.1, fun j hj => ?_⟩
      have hbit : ∀ k : Fin 4, k ≠ 3 → mask.getLsbD k.val = true := fun k hk => (hread k).trans (h.2 k hk)
      obtain ⟨hset, -, -, -⟩ := mask_words mask (hbit 0 (by decide)) (hbit 1 (by decide))
        (hbit 2 (by decide)) ⟨channel.toNat, by omega⟩
      simp only at hset
      rw [outMask_masked, hset, if_neg hj]
      exact h.2 j hj

/-- **The wrong channel.**  In every run after `dma_init` in which port 0x0A reads as the four mask bits, a
transfer that is started on a channel opens channel 3 if the channel is 2, and otherwise none. -/
theorem wrong_channel {d₀ d : Driver} (hr : Reach step MasksRead (dmaInit d₀) d)
    (hread : d.chip.ReadsMasks oldMask) (i : Fin 4) (src : BitVec 32) (mode : BitVec 16) (h0 : 0 < len)
    (hlen : len ≤ 65536) (j : Fin 4) :
    ((dmaStartTransfer d oldMask (i.val : Int) src len mode).2.chip.chan j).masked = false ↔
      i = 2 ∧ j = 3 := by
  have hinit : LowMasked (dmaInit d₀) := by
    refine ⟨rfl, fun j _ => ?_⟩
    fin_cases j <;> rfl
  have hlow : LowMasked d := hr.inv hinit (fun _ _ _ hs hok hst => lowMasked_step hs hok hst)
  have hensure : ensure d = d := by rw [ensure, if_pos hlow.1]
  rw [dmaStartTransfer_eq d oldMask i src mode h0 hlen, hensure]
  simp only
  rw [hlow.start hread]
  simp

/-- A controller after reset. -/
def resetChip : Chip := ⟨fun _ => ⟨0#16, 0#16, 0#8, true, 0#8⟩, false, 0#8⟩

/-- 1 KB from 0x18000, with the page register at 0: the bytes are those from 0x8000. -/
theorem transfer_exact_iff_page : ¬ ∀ k < 1024,
    (dmaStartTransfer ⟨resetChip, false⟩ 0x0F#8 ((0 : Fin 4).val : Int) 0x18000#32 1024 0x44#16).2.chip.cell 0 k =
      (0x18000#32 : BitVec 32).toNat + k := by
  obtain ⟨-, -, hiff⟩ := transfer_exact_iff ⟨resetChip, false⟩ 0x0F#8 0 0x18000#32 0x44#16
    (show 0 < 1024 by decide) (by decide) (Prod.mk.eta).symm
  rw [hiff]
  decide

/-- A transfer on channel 2 opens channel 3. -/
theorem wrong_channel_two : ((dmaStartTransfer (dmaInit ⟨resetChip, false⟩) 0x0F#8 ((2 : Fin 4).val : Int)
    0x1000#32 16 0x44#16).2.chip.chan 3).masked = false :=
  (wrong_channel (.refl : Reach step MasksRead (dmaInit ⟨resetChip, false⟩) _)
    (fun i => by fin_cases i <;> rfl) 2 0x1000#32 0x44#16 (by decide) (by decide) 3).mpr ⟨rfl, rfl⟩

end JarvOs.Drivers.Dma
