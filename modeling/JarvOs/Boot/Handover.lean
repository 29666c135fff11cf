/-
# From the disk to `kernel_main` (`boot/boot2.asm`, `kernel/entry.asm`, `kernel/linker.ld`)

Stage 2 opens address line 20, has the BIOS read the kernel to 0x10000, enters protected mode, copies the
kernel to 1 MB and clears the screen.  `_start` then copies `.data` to where it is to be and zeroes
`.bss`.  Between the disk and `kernel_main` there are three copies and two fills, and the kernel is the
one on the disk only if none of them undoes another.

* Line 20 is part of the model: with the gate closed, 1 MB is address 0 (`Board.line`).
* `_sidata` is `LOADADDR(.data)`.  The script gives `.data` no load address of its own, so it is `_sdata`,
  and the copy of `.data` is a copy to itself.
* The loader reads drive 0x80, whichever drive the machine was started from.

For up to 127 sectors, the kernel that starts is the kernel on that drive if and only if its image has no
more bytes than the sectors that are read (`handed_over_iff`).

What the BIOS and the stack use below 0x7C00 is left out, and so are the messages (INT 10h) and the error
path of INT 13h.
-/
import JarvOs.Boot.ReadLoop
import JarvOs.Lib.StringOps
import JarvOs.Memory.Image

namespace JarvOs.Boot

open JarvOs.Lib.StringOps
open JarvOs.Memory (linkStart)

/-! ## 1. The code -/

/-- Memory, and the system control port. -/
structure Board where
  mem : Nat → UInt8
  port92 : BitVec 8

/-- The cell that an address reaches.  Line 20 is low unless bit 1 of port 0x92 is set. -/
def Board.line (b : Board) (a : Nat) : Nat :=
  let a := a % 2 ^ 32
  if b.port92.getLsbD 1 then a else a - a / 2 ^ 20 % 2 * 2 ^ 20

/-- `enable_a20`.  A 1 written to bit 0 resets the machine. -/
def enableA20 (b : Board) : Option Board :=
  let al := b.port92 ||| 2#8
  if al.getLsbD 0 then none else some { b with port92 := al }

/-- One sector of a disk goes to memory. -/
def readSector (line : Nat → Nat) (disk : Nat → UInt8) (m : Nat → UInt8) (t : Nat × Nat) : Nat → UInt8 :=
  store line m t.2 ((List.range 512).map (fun k => disk (512 * t.1 + k)))

/-- INT 13h with AH = 2. -/
def int13 (disk : Nat → UInt8) (b : Board) (r : Request) : Board :=
  { b with mem := r.transfers.foldl (readSector b.line disk) b.mem }

/-- `pm_entry`: `rep movsd`, then `rep stosw` of 0x0F20. -/
def pmEntry (kernelSectors : BitVec 16) (b : Board) : Board :=
  let mem := repMovs b.line 4 (kernelSectors.toNat * 512 / 4) 0x10000 0x100000 b.mem
  { b with mem := repStos b.line [0x20, 0x0F] (80 * 25) 0xB8000 mem }

/-- Stage 2, with the drives by their numbers and so many rounds of `read_loop`. -/
def stage2 (kernelSectors : BitVec 16) (disks : BitVec 8 → Nat → UInt8) (fuel : Nat) (b : Board) :
    Option Board := do
  let b ← enableA20 b
  let requests ← readLoop fuel (start kernelSectors)
  return pmEntry kernelSectors (requests.foldl (int13 (disks 0x80#8)) b)

/-- The addresses that `linker.ld` settles. -/
structure Layout where
  sdata : Nat
  edata : Nat
  bssStart : Nat
  bssEnd : Nat
  linkStart_le : linkStart ≤ sdata
  data_le : sdata ≤ edata
  edata_le : edata ≤ bssStart
  bss_le : bssStart ≤ bssEnd
  lt : bssEnd < 2 ^ 32

/-- `_sidata = LOADADDR(.data)`, with no `AT` in the script -/
def Layout.sidata (L : Layout) : Nat := L.sdata

/-- `_start`, up to the call of `kernel_main`: `rep movsb`, then `rep stosb` of 0. -/
def entryStart (L : Layout) (b : Board) : Board :=
  let mem := repMovs b.line 1 (L.edata - L.sdata) L.sidata L.sdata b.mem
  { b with mem := repStos b.line [0] (L.bssEnd - L.bssStart) L.bssStart mem }

/-- From stage 2 to `kernel_main`. -/
def boot (kernelSectors : BitVec 16) (L : Layout) (disks : BitVec 8 → Nat → UInt8) (fuel : Nat)
    (b : Board) : Option Board :=
  (stage2 kernelSectors disks fuel b).map (entryStart L)

/-! ## 2. What is to be handed over -/

/-- Byte `i` of the kernel: it starts in sector 9. -/
def kernelByte (disk : Nat → UInt8) (i : Nat) : UInt8 := disk (512 * 9 + i)

/-- **The kernel is in place**: its image is the one on the disk, `.bss` is zero and the screen blank, and
memory from 0x7C00 on is as it was but for these and the two places the loader copies to. -/
structure HandedOver (kernelSectors : BitVec 16) (L : Layout) (disk : Nat → UInt8) (before after : Board) :
    Prop where
  image : ∀ a, linkStart ≤ a → a < L.edata → after.mem a = kernelByte disk (a - linkStart)
  bss : ∀ a, L.bssStart ≤ a → a < L.bssEnd → after.mem a = 0
  screen : ∀ i < 80 * 25, after.mem (0xB8000 + 2 * i) = 0x20 ∧ after.mem (0xB8000 + 2 * i + 1) = 0x0F
  rest : ∀ a, 0x7C00 ≤ a → a < 2 ^ 32 →
    (∀ base ∈ [0x10000, linkStart], ¬ (base ≤ a ∧ a < base + 512 * kernelSectors.toNat)) →
    ¬ (0xB8000 ≤ a ∧ a < 0xB8000 + 2 * (80 * 25)) → ¬ (L.bssStart ≤ a ∧ a < L.bssEnd) →
    after.mem a = before.mem a

/-! ## 3. The steps -/

variable {b : Board} {disk : Nat → UInt8} {L : Layout} {n : Nat} {kernelSectors : BitVec 16}

/-- Line 20 is open. -/
theorem enableA20_open (h0 : b.port92.getLsbD 0 = false) :
    ∃ b', enableA20 b = some b' ∧ b'.mem = b.mem ∧ Straight b'.line (2 ^ 32) := by
  have hbit : (b.port92 ||| 2#8).getLsbD 0 = false := by
    rw [BitVec.getLsbD_or, h0]
    rfl
  have hopen : (b.port92 ||| 2#8).getLsbD 1 = true := by
    rw [BitVec.getLsbD_or]
    exact Bool.or_true _
  refine ⟨{ b with port92 := b.port92 ||| 2#8 }, ?_, rfl, fun a ha => ?_⟩
  · simp only [enableA20, hbit, Bool.false_eq_true, if_false]
  · simp only [Board.line, hopen, if_true]
    exact Nat.mod_eq_of_lt ha

/-- What the requests read is what they transfer, in order. -/
theorem foldl_int13 (disk : Nat → UInt8) (requests : List Request) : ∀ b : Board,
    requests.foldl (int13 disk) b =
      { b with mem := (requests.flatMap Request.transfers).foldl (readSector b.line disk) b.mem } := by
  induction requests with
  | nil => exact fun b => rfl
  | cons r rs ih =>
    intro b
    rw [List.foldl_cons, ih, List.flatMap_cons, List.foldl_append]
    rfl

theorem readSector_apply {line : Nat → Nat} (hline : Straight line (2 ^ 32)) (disk m : Nat → UInt8)
    {s a : Nat} (ha : a + 512 ≤ 2 ^ 32) (x : Nat) : readSector line disk m (s, a) x =
      if a ≤ x ∧ x < a + 512 then disk (512 * s + (x - a)) else m x := by
  have hlen : ((List.range 512).map (fun k => disk (512 * s + k))).length = 512 := by simp
  refine (store_apply hline _ m a x (by rw [hlen]; exact ha)).trans ?_
  by_cases hx : a ≤ x ∧ x < a + 512
  · rw [if_pos hx.1, if_pos hx, List.getD_eq_getElem _ _ (by rw [hlen]; omega)]
    simp only [List.getElem_map, List.getElem_range]
  · rw [if_neg hx]
    split_ifs with hle
    · rw [List.getD_eq_default _ _ (by rw [hlen]; omega)]
    · rfl

/-- **The sectors of the kernel**, one after the other at 0x10000. -/
theorem read_kernel {line : Nat → Nat} (hline : Straight line (2 ^ 32)) (disk m : Nat → UInt8) (x : Nat) :
    ∀ n ≤ 127, ((List.range n).map kernelSector).foldl (readSector line disk) m x =
      if 0x10000 ≤ x ∧ x < 0x10000 + 512 * n then kernelByte disk (x - 0x10000) else m x := by
  intro n
  induction n with
  | zero =>
    intro _
    rw [if_neg (by omega)]
    rfl
  | succ n ih =>
    intro hn
    rw [List.range_succ, List.map_append, List.foldl_append, List.map_singleton, List.foldl_cons,
      List.foldl_nil, kernelSector, readSector_apply hline _ _ (by omega), ih (by omega)]
    have hsector : 0x10000 + 512 * n ≤ x →
        512 * (9 + n) + (x - (0x10000 + 512 * n)) = 512 * 9 + (x - 0x10000) := by omega
    split_ifs with h1 h2 h3 h4
    · rw [hsector h1.1, kernelByte]
    all_goals first | rfl | omega

/-- The address lines are those of the port. -/
theorem Board.line_congr {b b' : Board} (h : b'.port92 = b.port92) : b'.line = b.line := by
  funext a
  rw [Board.line, Board.line, h]

/-- **`pm_entry`** on top of what was read. -/
theorem pmEntry_apply (hline : Straight b.line (2 ^ 32)) (hks : kernelSectors.toNat ≤ 127) (x : Nat) :
    (pmEntry kernelSectors b).mem x =
      if 0xB8000 ≤ x ∧ x < 0xB8000 + 2 * (80 * 25) then if x % 2 = 0 then 0x20 else 0x0F
      else if 0x100000 ≤ x ∧ x < 0x100000 + 512 * kernelSectors.toNat then b.mem (x - 0x100000 + 0x10000)
      else b.mem x := by
  have hwords : kernelSectors.toNat * 512 / 4 * 4 = 512 * kernelSectors.toNat := by omega
  have hcopy := repMovs_apply hline (w := 4) (kernelSectors.toNat * 512 / 4) 0x10000 0x100000
    b.mem x (by omega) (by omega) (by omega)
  have hblank : ∀ (i : Nat) (d : UInt8),
      ([0x20, 0x0F] : List UInt8).getD (i % 2) d = if i % 2 = 0 then 0x20 else 0x0F := by
    intro i d
    rcases Nat.mod_two_eq_zero_or_one i with h | h <;> rw [h] <;> rfl
  rw [pmEntry]
  simp only
  rw [repStos_apply hline _ _ _ x (by norm_num), hcopy, hwords]
  simp only [List.length_cons, List.length_nil, Nat.zero_add, hblank]
  have heven : 0xB8000 ≤ x → (x - 0xB8000) % 2 = x % 2 := by omega
  rw [Nat.add_comm (x - 0x100000)]
  split_ifs <;> first | rfl | omega

/-- **`_start`** on top of that. -/
theorem entryStart_apply (hline : Straight b.line (2 ^ 32)) (L : Layout) (x : Nat) :
    (entryStart L b).mem x = if L.bssStart ≤ x ∧ x < L.bssEnd then 0 else b.mem x := by
  have hdata := L.data_le
  have hedata := L.edata_le
  have hbss := L.bss_le
  have hlt := L.lt
  have hcopy := repMovs_apply hline (w := 1) (L.edata - L.sdata) L.sidata L.sdata
    b.mem x (by simp only [Layout.sidata]; omega) (by omega) (Or.inl le_rfl)
  -- `.data` is copied to itself
  have hself : repMovs b.line 1 (L.edata - L.sdata) L.sidata L.sdata b.mem x = b.mem x := by
    rw [hcopy]
    split_ifs with h
    · rw [Layout.sidata, Nat.add_sub_cancel' h.1]
    · rfl
  rw [entryStart]
  simp only
  rw [repStos_apply hline _ _ _ x (by simp only [List.length_singleton]; omega), hself]
  simp only [List.length_singleton, Nat.mod_one, Nat.mul_one, List.getD_cons_zero,
    Nat.add_sub_cancel' hbss]

/-! ## 4. All of it -/

/-- **Memory when `kernel_main` is called.** -/
theorem boot_spec (disks : BitVec 8 → Nat → UInt8) (hks : kernelSectors.toNat ≤ 127)
    (h0 : b.port92.getLsbD 0 = false) (L : Layout) :
    ∃ fuel b', boot kernelSectors L disks fuel b = some b' ∧ ∀ x, b'.mem x =
      if L.bssStart ≤ x ∧ x < L.bssEnd then 0
      else if 0xB8000 ≤ x ∧ x < 0xB8000 + 2 * (80 * 25) then if x % 2 = 0 then 0x20 else 0x0F
      else if 0x100000 ≤ x ∧ x < 0x100000 + 512 * kernelSectors.toNat then
        kernelByte (disks 0x80#8) (x - 0x100000)
      else if 0x10000 ≤ x ∧ x < 0x10000 + 512 * kernelSectors.toNat then
        kernelByte (disks 0x80#8) (x - 0x10000)
      else b.mem x := by
  obtain ⟨fuel, requests, hloop, -, hflat⟩ := (reads_kernel_iff kernelSectors).mpr hks
  obtain ⟨b₁, hopen, hmem, hline⟩ := enableA20_open h0
  have hstage : stage2 kernelSectors disks fuel b =
      some (pmEntry kernelSectors (requests.foldl (int13 (disks 0x80#8)) b₁)) := by
    rw [stage2, hopen, Option.bind_eq_bind, Option.bind_some, hloop, Option.bind_eq_bind, Option.bind_some]
    rfl
  have hread : ∀ x, (requests.foldl (int13 (disks 0x80#8)) b₁).mem x =
      if 0x10000 ≤ x ∧ x < 0x10000 + 512 * kernelSectors.toNat then
        kernelByte (disks 0x80#8) (x - 0x10000) else b.mem x := by
    intro x
    rw [foldl_int13, hflat, ← hmem]
    exact read_kernel hline _ _ x _ hks
  have hport : (requests.foldl (int13 (disks 0x80#8)) b₁).port92 = b₁.port92 := by rw [foldl_int13]
  generalize requests.foldl (int13 (disks 0x80#8)) b₁ = b₂ at hstage hread hport
  have hline₂ : Straight b₂.line (2 ^ 32) := Board.line_congr hport ▸ hline
  have hline₃ : Straight (pmEntry kernelSectors b₂).line (2 ^ 32) := by
    have hport₃ : (pmEntry kernelSectors b₂).port92 = b₂.port92 := by simp only [pmEntry]
    rwa [Board.line_congr hport₃]
  refine ⟨fuel, entryStart L (pmEntry kernelSectors b₂), by rw [boot, hstage, Option.map_some], fun x => ?_⟩
  rw [entryStart_apply hline₃, pmEntry_apply hline₂ hks, hread, hread, Nat.add_sub_cancel]
  split_ifs <;> first | omega | rfl

/-- However many rounds of the loop are allowed, if they are enough. -/
theorem readLoop_unique : ∀ {fuel fuel' : Nat} {s : Loader} {rs rs' : List Request},
    readLoop fuel s = some rs → readLoop fuel' s = some rs' → rs = rs' := by
  intro fuel
  induction fuel with
  | zero => exact fun h _ => absurd h (by simp [readLoop])
  | succ fuel ih =>
    intro fuel' s rs rs' h h'
    cases fuel' with
    | zero => exact absurd h' (by simp [readLoop])
    | succ fuel' =>
      rw [readLoop] at h h'
      split_ifs at h h' with hdone
      · rw [← Option.some.inj h, ← Option.some.inj h']
      · obtain ⟨ts, hts, rfl⟩ := Option.map_eq_some_iff.mp h
        obtain ⟨ts', hts', rfl⟩ := Option.map_eq_some_iff.mp h'
        rw [ih hts hts']

theorem boot_unique {disks : BitVec 8 → Nat → UInt8} {fuel fuel' : Nat} {c c' : Board}
    (h : boot kernelSectors L disks fuel b = some c) (h' : boot kernelSectors L disks fuel' b = some c') :
    c = c' := by
  obtain ⟨d, hd, rfl⟩ := Option.map_eq_some_iff.mp h
  obtain ⟨d', hd', rfl⟩ := Option.map_eq_some_iff.mp h'
  obtain ⟨e, he, hrest⟩ := Option.bind_eq_some_iff.mp hd
  obtain ⟨e', he', hrest'⟩ := Option.bind_eq_some_iff.mp hd'
  obtain rfl : e = e' := Option.some.inj (he.symm.trans he')
  obtain ⟨rs, hrs, hd⟩ := Option.bind_eq_some_iff.mp hrest
  obtain ⟨rs', hrs', hd'⟩ := Option.bind_eq_some_iff.mp hrest'
  rw [← Option.some.inj hd, ← Option.some.inj hd', readLoop_unique hrs hrs']

/-- **The kernel that starts is the kernel on drive 0x80** if and only if the sectors that are read hold
all of its image. -/
theorem handed_over_iff (hks : kernelSectors.toNat ≤ 127) (L : Layout) :
    (∀ disks b, b.port92.getLsbD 0 = false → ∃ fuel b', boot kernelSectors L disks fuel b = some b' ∧
      HandedOver kernelSectors L (disks 0x80#8) b b') ↔
    L.edata ≤ linkStart + 512 * kernelSectors.toNat := by
  have hstart := L.linkStart_le
  have hdata := L.data_le
  have hedata := L.edata_le
  have hbss := L.bss_le
  simp only [linkStart] at hstart ⊢
  constructor
  · intro h
    -- a disk of ones, and memory full of zeros: the byte behind the sectors that are read
    by_contra hbig
    obtain ⟨fuel, b', hboot, hover⟩ := h (fun _ _ => 1) ⟨fun _ => 0, 0#8⟩ rfl
    obtain ⟨fuel', b'', hboot', hmem⟩ := boot_spec (b := ⟨fun _ => 0, 0#8⟩) (fun _ _ => 1) hks rfl L
    obtain rfl := boot_unique hboot hboot'
    have himage := hover.image (0x100000 + 512 * kernelSectors.toNat) (by rw [linkStart]; omega) (by omega)
    rw [hmem, if_neg (by omega), if_neg (by omega), if_neg (by omega), if_neg (by omega)] at himage
    exact absurd himage (by simp [kernelByte])
  · intro hfit disks b h0
    obtain ⟨fuel, b', hboot, hmem⟩ := boot_spec disks hks h0 L
    refine ⟨fuel, b', hboot, fun a hlo hhi => ?_, fun a hlo hhi => ?_, fun i hi => ⟨?_, ?_⟩,
      fun a hlo hhi hoff hscreen hb => ?_⟩
    · simp only [linkStart] at hlo
      rw [hmem, if_neg (by omega), if_neg (by omega), if_pos (by omega), linkStart]
    · rw [hmem, if_pos ⟨hlo, hhi⟩]
    · rw [hmem, if_neg (by omega), if_pos (by omega), if_pos (by omega)]
    · rw [hmem, if_neg (by omega), if_pos (by omega), if_neg (by omega)]
    · have hbuffer := hoff 0x10000 (by simp)
      have hkernel := hoff linkStart (by simp)
      rw [linkStart] at hkernel
      rw [hmem, if_neg hb, if_neg hscreen, if_neg hkernel, if_neg hbuffer]

/-- The sizes of a small kernel. -/
def smallLayout : Layout :=
  ⟨0x108000, 0x109000, 0x109000, 0x220000, by decide, by decide, by decide, by decide, by decide⟩

/-- `KERNEL_SECTORS` is 100: a kernel of 36 KB is handed over. -/
theorem handed_over_small : ∀ disks b, b.port92.getLsbD 0 = false → ∃ fuel b',
    boot 100#16 smallLayout disks fuel b = some b' ∧
      HandedOver 100#16 smallLayout (disks 0x80#8) b b' :=
  (handed_over_iff (by decide) smallLayout).mpr (by decide)

end JarvOs.Boot
