/-
# `sys_write` and the user bit (`kernel/syscall.c`, `kernel/drivers/serial.c`)

Ring 3 reads a page of the current directory only where `PAGE_USER` is set in the directory entry AND
in the table entry.  `sys_write` reads its buffer in ring 0, where the bit means nothing, and looks at
no page table before it does.  So a caller can have the bytes of any mapped page sent out on the serial
port: what the two-run property needs is exactly that the buffer touches no page hidden from ring 3
(`write_confined_iff`).

A call that faults has sent the bytes before the fault, so what a call sends and what it answers are
kept apart (`Reply`).
-/
import JarvOs.Memory.Vmm
import JarvOs.Syscall.Stub

namespace JarvOs.Syscall

open JarvOs.Lib JarvOs.Memory
open JarvOs.Lib.X86 (Word)

/-! ## 1. The code -/

/-- What a call sends on the serial port, and its result unless the kernel faults. -/
structure Reply (α : Type) where
  sent : List UInt8
  result : Option α

/-- `*regs` -/
abbrev Registers := RegField → Word

/-- The loop of `hal_serial_write`, from byte `i` on with `n` bytes to go.  `serial_write_byte` waits
until the port takes the byte. -/
def serialLoop (m : Machine) (data : Nat) : Nat → Nat → Reply Unit
  | _, 0 => ⟨[], some ()⟩
  | i, n + 1 =>
    match mmu.get m (add32 data i) with
    | none => ⟨[], none⟩
    | some x => ⟨x :: (serialLoop m data (i + 1) n).sent, (serialLoop m data (i + 1) n).result⟩

/-- `hal_serial_write` -/
def halSerialWrite (m : Machine) (data len : Nat) : Reply Unit := serialLoop m data 0 len

/-- `sys_write`; `count` goes through an `int` on its way back. -/
def sysWrite (m : Machine) (fd : Int) (buf count : Nat) : Reply Int :=
  if fd = 1 then
    let r := halSerialWrite m buf count
    ⟨r.sent, r.result.map (fun _ => (count : Int).bmod (2 ^ 32))⟩
  else ⟨[], some (-9)⟩

/-- The calls that work on the scheduler and on message queues: `sys_exit`, `sys_fork`, and
`sys_msgget` to `sys_msgctl`. -/
def serviceNumbers : List Int := [1, 2, 67, 68, 69, 70]

/-- The calls that are not implemented: `sys_times`, `sys_prof` and `sys_shmat` answer -1, all others
and every unknown number `-ENOSYS`. -/
def stubAnswer (n : Int) : Int := if n ∈ ([43, 44, 74] : List Int) then -1 else -38

/-- The `switch` of `syscall_handler`, over the calls that work on other parts of the kernel. -/
def dispatch (service : Machine → Registers → Reply Int) (m : Machine) (regs : Registers) :
    Reply Int :=
  let num := (regs .eax).toInt
  if num = 4 then sysWrite m (regs .ebx).toInt (regs .ecx).toNat (regs .edx).toNat
  else if num ∈ serviceNumbers then service m regs
  else ⟨[], some (stubAnswer num)⟩

/-- `syscall_handler`: the registers as it leaves them. -/
def syscallHandler (service : Machine → Registers → Reply Int) (m : Machine) (regs : Registers) :
    Reply Registers :=
  let r := dispatch service m regs
  ⟨r.sent, r.result.map (fun ret => Function.update regs .eax (BitVec.ofInt 32 ret))⟩

/-- `SYS_WRITE` with the other registers as they are. -/
def writeCall (regs : Registers) : Registers := Function.update regs .eax 4

/-! ## 2. What ring 3 sees -/

/-- The user bit. -/
def user (e : Nat) : Prop := e &&& pageUser ≠ 0

instance (e : Nat) : Decidable (user e) := inferInstanceAs (Decidable (_ ≠ _))

/-- The directory entry for an address. -/
def pdeAt (m : Machine) (va : Nat) : Nat := tables m.mem m.dir (dirIdx va)

/-- The table entry for an address. -/
def pteAt (m : Machine) (va : Nat) : Nat := tables m.mem (pfn (pdeAt m va)) (tabIdx va)

/-- A byte of memory that some user-accessible address leads to. -/
def UserByte (m : Machine) (a : Nat) : Prop :=
  ∃ va < 2 ^ 32, user (pdeAt m va) ∧ user (pteAt m va) ∧ m.translate va = some a

/-- The pages of the current directory and of its tables. -/
def TablePage (m : Machine) (q : Nat) : Prop :=
  q = m.dir ∨ ∃ i, present (tables m.mem m.dir i) ∧ q = pfn (tables m.mem m.dir i)

/-- A byte that is hidden from ring 3, and no part of the page tables. -/
def Secret (m : Machine) (a : Nat) : Prop := ¬ UserByte m a ∧ ¬ TablePage m (a / 4096)

/-- Two machines with the same page tables that ring 3 cannot tell apart. -/
structure Alike (m m' : Machine) : Prop where
  paging : m'.paging = m.paging
  cr3 : m'.cr3 = m.cr3
  tables : ∀ q, TablePage m q → ∀ i, tables m'.mem q i = tables m.mem q i
  user : ∀ a, UserByte m a → m'.mem a = m.mem a

variable {m m' : Machine} {a va data : Nat}

/-- **The same page tables translate alike.** -/
theorem Alike.translate (h : Alike m m') (va : Nat) : m'.translate va = m.translate va := by
  have hdir : m'.dir = m.dir := by rw [Machine.dir, h.cr3, Machine.dir]
  rw [Machine.translate, Machine.translate, h.paging, hdir]
  rw [walk_congr (entry_congr (h.tables _ (Or.inl rfl) _) ?_)]
  intro hp
  exact h.tables _ (Or.inr ⟨_, hp, rfl⟩) _

/-- Only secret bytes differ. -/
theorem Alike.mem (h : Alike m m') (ha : ¬ Secret m a) : m'.mem a = m.mem a := by
  rcases Classical.not_and_iff_not_or_not.mp ha with hu | ht
  · exact h.user a (not_not.mp hu)
  · exact mem_eq_of_tables (h.tables _ (not_not.mp ht))

/-- A secret byte may have any value. -/
theorem alike_setByte (ha : Secret m a) (x : UInt8) :
    Alike m { m with mem := setByte m.mem a x } where
  paging := rfl
  cr3 := rfl
  tables := by
    intro q hq i
    refine tables_setByte_ne m.mem x ?_ i
    rintro rfl
    exact ha.2 hq
  user := by
    intro b hb
    refine if_neg ?_
    rintro rfl
    exact ha.1 hb

/-! ## 3. The loop -/

/-- The loop comes to byte `i`: everything before it is mapped. -/
def Reached (m : Machine) (data i : Nat) : Prop :=
  ∀ j < i, (m.translate (add32 data j)).isSome

/-- **The loop sends the bytes of its buffer**, as far as it comes. -/
theorem serialLoop_sent (k : Nat) : ∀ (n i : Nat), i < n → (∀ j < i,
    (m.translate (add32 data (k + j))).isSome) →
      (serialLoop m data k n).sent[i]? = mmu.get m (add32 data (k + i)) := by
  intro n
  induction n generalizing k with
  | zero => intro i hi; omega
  | succ n ih =>
    intro i hi hmapped
    cases hx : mmu.get m (add32 data k) with
    | none =>
      -- an unmapped first byte ends the loop, and then `i` can only be that byte
      cases i with
      | zero => simp [serialLoop, hx]
      | succ i =>
        have h0 := hmapped 0 (by omega)
        simp only [mmu, Option.map_eq_none_iff, Nat.add_zero] at hx h0
        simp [hx] at h0
    | some x =>
      cases i with
      | zero => simp [serialLoop, hx]
      | succ i =>
        have hrest := ih (k + 1) i (by omega) (fun j hj => by
          have := hmapped (j + 1) (by omega)
          rwa [show k + (j + 1) = k + 1 + j by omega] at this)
        rw [show k + (i + 1) = k + 1 + i by omega, ← hrest]
        simp [serialLoop, hx]

/-- Machines that agree on every byte the loop comes to send the same. -/
theorem serialLoop_congr (k : Nat) : ∀ n : Nat, (∀ i < n, Reached m data (k + i) →
    mmu.get m' (add32 data (k + i)) = mmu.get m (add32 data (k + i))) → Reached m data k →
      serialLoop m' data k n = serialLoop m data k n := by
  intro n
  induction n generalizing k with
  | zero => intro _ _; rfl
  | succ n ih =>
    intro hsame hk
    have h0 := hsame 0 (by omega) hk
    rw [Nat.add_zero] at h0
    cases hx : mmu.get m (add32 data k) with
    | none => simp only [serialLoop, h0, hx]
    | some x =>
      have hk' : Reached m data (k + 1) := by
        intro j hj
        rcases Nat.lt_succ_iff_lt_or_eq.mp hj with hlt | rfl
        · exact hk j hlt
        · obtain ⟨b, hb, -⟩ := Option.map_eq_some_iff.mp hx
          exact Option.isSome_iff_exists.mpr ⟨b, hb⟩
      have hrest := ih (k + 1) (fun i hi hr => by
        have := hsame (i + 1) (by omega)
        rw [show k + (i + 1) = k + 1 + i by omega] at this
        exact this hr) hk'
      simp only [serialLoop, h0, hx, hrest]

/-! ## 4. Two runs -/

/-- The call touches a byte ring 3 may not see. -/
def Discloses (m : Machine) (regs : Registers) : Prop :=
  ∃ i < (regs .edx).toNat, Reached m (regs .ecx).toNat i ∧
    ∃ a, m.translate (add32 (regs .ecx).toNat i) = some a ∧ Secret m a

theorem writeCall_reply (service : Machine → Registers → Reply Int) (m : Machine)
    (regs : Registers) : syscallHandler service m (writeCall regs) =
      ⟨(sysWrite m (regs .ebx).toInt (regs .ecx).toNat (regs .edx).toNat).sent,
        (sysWrite m (regs .ebx).toInt (regs .ecx).toNat (regs .edx).toNat).result.map
          (fun ret => Function.update (writeCall regs) .eax (BitVec.ofInt 32 ret))⟩ := by
  have hnum : (writeCall regs .eax).toInt = 4 := by
    simp [writeCall]
  simp only [syscallHandler, dispatch, hnum, if_true]
  rfl

/-- Where the buffer is in order, machines alike for ring 3 answer alike. -/
theorem sysWrite_congr (h : Alike m m') (fd : Int) (buf count : Nat) (hok : ∀ i < count,
    Reached m buf i → ∀ a, m.translate (add32 buf i) = some a → ¬ Secret m a) :
      sysWrite m' fd buf count = sysWrite m fd buf count := by
  have hloop : halSerialWrite m' buf count = halSerialWrite m buf count := by
    refine serialLoop_congr 0 count (fun i hi hr => ?_) (fun j hj => by omega)
    rw [Nat.zero_add] at hr ⊢
    simp only [mmu, h.translate]
    cases ht : m.translate (add32 buf i) with
    | none => rfl
    | some a => simp only [Option.map_some, h.mem (hok i hi hr a ht)]
  rw [sysWrite, sysWrite, hloop]

/-- A byte of the buffer that the loop comes to is sent. -/
theorem halSerialWrite_sent {buf count i : Nat} (hi : i < count) (hr : Reached m buf i)
    (ht : m.translate (add32 buf i) = some a) :
    (halSerialWrite m buf count).sent[i]? = some (m.mem a) := by
  rw [halSerialWrite, serialLoop_sent 0 count i hi]
  · rw [Nat.zero_add]
    simp only [mmu, ht, Option.map_some]
  · intro j hj
    rw [Nat.zero_add]
    exact hr j hj

/-- **A secret byte in the buffer is sent**, whatever it is. -/
theorem halSerialWrite_secret {buf count i : Nat} (hi : i < count) (hr : Reached m buf i)
    (ht : m.translate (add32 buf i) = some a) (ha : Secret m a) (x : UInt8) :
    (halSerialWrite { m with mem := setByte m.mem a x } buf count).sent[i]? = some x := by
  have hlike := alike_setByte ha x
  rw [halSerialWrite_sent hi (fun j hj => by rw [hlike.translate]; exact hr j hj)
    ((hlike.translate _).trans ht)]
  exact congrArg some (if_pos rfl)

/-- **When `sys_write` keeps supervisor memory from ring 3.**  `SYS_WRITE` answers alike on all
machines that ring 3 cannot tell from this one if and only if it is not a write to descriptor 1, or
every byte of the buffer that the loop comes to is one ring 3 could read itself (or part of the page
tables, which are the same on all these machines). -/
theorem write_confined_iff (service : Machine → Registers → Reply Int) (m : Machine)
    (regs : Registers) :
    (∀ m', Alike m m' →
      syscallHandler service m' (writeCall regs) = syscallHandler service m (writeCall regs)) ↔
    (regs .ebx ≠ 1 ∨ ¬ Discloses m regs) := by
  constructor
  · intro hsame
    rcases em (regs .ebx = 1) with hfd | hfd
    · refine Or.inr ?_
      rintro ⟨i, hi, hr, a, ht, ha⟩
      -- the machine with another value in that byte
      have hne := hsame _ (alike_setByte ha (m.mem a + 1))
      have hfd' : (regs .ebx).toInt = 1 := by
        rw [hfd]
        rfl
      simp only [writeCall_reply, Reply.mk.injEq, sysWrite, hfd', if_true] at hne
      have hx := halSerialWrite_secret hi hr ht ha (m.mem a + 1)
      rw [hne.1, halSerialWrite_sent hi hr ht, Option.some.injEq] at hx
      exact absurd hx.symm (by simp)
    · exact Or.inl hfd
  · rintro (hfd | hok) m' h
    · have hfd' : (regs .ebx).toInt ≠ 1 := by
        intro hone
        exact hfd (BitVec.eq_of_toInt_eq (hone.trans rfl))
      simp only [writeCall_reply, sysWrite, if_neg hfd']
    · have hwrite := sysWrite_congr h (regs .ebx).toInt (regs .ecx).toNat (regs .edx).toNat
        (fun i hi hr a ht ha => hok ⟨i, hi, hr, a, ht, ha⟩)
      rw [writeCall_reply, writeCall_reply, hwrite]

/-- One table, for two pages: 0x3000 for the kernel, 0x4000 for ring 3. -/
def twoPages : Machine where
  mem := setWord (setWord (setWord (fun _ => 0) 0x1000 0x2007) 0x200C 0x3003) 0x2010 0x4007
  paging := true
  cr3 := 0x1000
  bitmap := Vector.replicate bitmapSize 0

/-- Three words of the tables are not zero. -/
theorem twoPages_tables : tables twoPages.mem =
    (((Tables.set (fun _ _ => 0) 1 0 0x2007).set 2 3 0x3003).set 2 4 0x4007) := by
  have hzero : tables (fun _ => 0) = fun _ _ => 0 := rfl
  have hmem : twoPages.mem = setWord (setWord (setWord (fun _ => 0) (4096 * 1 + 4 * (0 : Fin 1024))
      0x2007) (4096 * 2 + 4 * (3 : Fin 1024)) 0x3003) (4096 * 2 + 4 * (4 : Fin 1024)) 0x4007 := rfl
  rw [hmem, tables_setWord _ 2 4 (by norm_num), tables_setWord _ 2 3 (by norm_num),
    tables_setWord _ 1 0 (by norm_num), hzero]

theorem twoPages_secret : Secret twoPages 0x3000 := by
  have hdir : ∀ i, present (tables twoPages.mem 1 i) → pfn (tables twoPages.mem 1 i) = 2 := by
    intro i hp
    rw [twoPages_tables, set_page_ne (by decide), set_page_ne (by decide)] at hp ⊢
    rcases eq_or_ne i 0 with rfl | hi
    · rw [set_same]
      decide
    · rw [set_other (fun heq => hi heq.2)] at hp
      exact absurd hp not_present_zero
  have htab : ∀ j, user (tables twoPages.mem 2 j) → tables twoPages.mem 2 j = 0x4007 := by
    intro j hu
    rw [twoPages_tables] at hu ⊢
    rcases eq_or_ne j 4 with rfl | h4
    · exact set_same _ _ _ _
    · rw [set_other (fun heq => h4 heq.2)] at hu
      rcases eq_or_ne j 3 with rfl | h3
      · rw [set_same] at hu
        exact absurd hu (by decide)
      · rw [set_other (fun heq => h3 heq.2), set_page_ne (by decide)] at hu
        exact absurd hu (by decide)
  refine ⟨?_, ?_⟩
  · rintro ⟨va, -, -, hpte, ht⟩
    obtain ⟨e, he, hea⟩ := Option.map_eq_some_iff.mp ht
    obtain ⟨hp, -, hpe⟩ := entry_eq_some.mp he
    simp only [pteAt, pdeAt, show twoPages.dir = 1 from rfl] at hpte hp hpe
    rw [hdir _ hp] at hpte hpe
    rw [htab _ hpte] at hpe
    rw [← hpe, pfn] at hea
    omega
  · rintro (hq | ⟨i, hp, hq⟩)
    · exact absurd hq (by decide)
    · exact absurd (hq.trans (hdir i hp)) (by decide)

/-- **Ring 3 reads a kernel page through `sys_write`.**  Two machines that differ in one byte at
0x3000, a page without the user bit, answer `sys_write(1, 0x3000, 1)` with different bytes on the serial
port. -/
theorem write_discloses_kernel_byte : ∃ (m m' : Machine) (regs : Registers), Alike m m' ∧
    (∀ a, m'.mem a ≠ m.mem a → a = 0x3000) ∧ ¬ user (pteAt m 0x3000) ∧
    ∀ service : Machine → Registers → Reply Int,
      (syscallHandler service m (writeCall regs)).sent = [0] ∧
      (syscallHandler service m' (writeCall regs)).sent = [42] := by
  refine ⟨twoPages, { twoPages with mem := setByte twoPages.mem 0x3000 42 },
    fun f => if f = .ecx then 0x3000 else 1, alike_setByte twoPages_secret 42, ?_, by decide +kernel,
    ?_⟩
  · intro a hne
    by_contra ha
    exact hne (if_neg ha)
  · intro service
    rw [writeCall_reply, writeCall_reply]
    exact ⟨by decide +kernel, by decide +kernel⟩

end JarvOs.Syscall
