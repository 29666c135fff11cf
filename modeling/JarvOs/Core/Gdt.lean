/-
# Segment descriptors (`kernel/core/gdt.c`, `kernel/core/tss.c`)

The descriptor table has six entries of 64 bits.  Five are constants; the sixth, which describes the task
state segment, is put together from an address and a limit by `gdt_set_tss_entry`.  In a descriptor the
base is split over two fields and the limit over two others, an arrangement from the 80286 with the 32-bit
extension behind it.  `decode` takes a descriptor apart the way the processor does; only the encoding is
code of the kernel.

`tss_descriptor_lossless` says that the encoding loses nothing, for every base and every limit of 20 bits,
and leaves the other entries alone.  The limit is the only thing that could be lost: bits 20 and up have no
place in a descriptor, and the code drops them (`encodeTss_decode`).

`Booted` is what the kernel relies on after `gdt_init` and `tss_init`: the selectors of `tss.h` select
descriptors of their own privilege level, TR selects the TSS, and a switch to ring 0 finds the stack that
was set last.
-/
import JarvOs.Lib.BitFields

namespace JarvOs.Core

open JarvOs.Lib

/-! ## 1. Descriptors, as the processor reads them -/

/-- A segment descriptor. -/
structure Descriptor where
  base : BitVec 32
  limit : BitVec 20
  access : BitVec 8
  flags : BitVec 4
deriving DecidableEq, Repr

/-- Limit in bits 0-15 and 48-51, base in bits 16-39 and 56-63, access byte in bits 40-47, flags in bits
52-55. -/
def decode (d : BitVec 64) : Descriptor where
  base := d.extractLsb' 56 8 ++ d.extractLsb' 16 24
  limit := d.extractLsb' 48 4 ++ d.extractLsb' 0 16
  access := d.extractLsb' 40 8
  flags := d.extractLsb' 52 4

/-- The privilege level, in the access byte. -/
def Descriptor.dpl (d : Descriptor) : BitVec 2 := d.access.extractLsb' 5 2

/-! ## 2. The code -/

/-- `gdt` -/
abbrev Gdt := Vector (BitVec 64) 6

/-- `struct gdt_ptr` -/
structure GdtPtr where
  limit : BitVec 16
  base : BitVec 32
deriving DecidableEq, Repr

/-- `struct tss_entry`.  The fields left out are zero and not used. -/
structure TssEntry where
  esp0 : BitVec 32
  ss0 : BitVec 32
  iomapBase : BitVec 16
deriving DecidableEq, Repr

/-- `sizeof(struct tss_entry)`: 25 words and two halves. -/
def tssSize : Nat := 104

/-- `KERNEL_CS` -/
def kernelCs : BitVec 16 := 0x08#16

/-- `KERNEL_DS` -/
def kernelDs : BitVec 16 := 0x10#16

/-- `USER_CS` -/
def userCs : BitVec 16 := 0x1B#16

/-- `USER_DS` -/
def userDs : BitVec 16 := 0x23#16

/-- `TSS_SEL` -/
def tssSel : BitVec 16 := 0x28#16

/-- The static variables of the two files and the registers they load.  `data` is DS, ES, FS, GS and SS. -/
structure Segments where
  gdt : Gdt
  gp : GdtPtr
  tss : TssEntry
  gdtr : GdtPtr
  cs : BitVec 16
  data : BitVec 16
  tr : BitVec 16

/-- `gdt_set_entry` -/
def gdtSetEntry (gdt : Gdt) (i : Nat) (hi : i < 6) (value : BitVec 64) : Gdt := gdt.set i value hi

/-- The table `gdt_init` writes. -/
def gdtEntries (gdt : Gdt) : Gdt :=
  let gdt := gdtSetEntry gdt 0 (by decide) 0x0000000000000000#64
  let gdt := gdtSetEntry gdt 1 (by decide) 0x00CF9A000000FFFF#64
  let gdt := gdtSetEntry gdt 2 (by decide) 0x00CF92000000FFFF#64
  let gdt := gdtSetEntry gdt 3 (by decide) 0x00CFFA000000FFFF#64
  let gdt := gdtSetEntry gdt 4 (by decide) 0x00CFF2000000FFFF#64
  gdtSetEntry gdt 5 (by decide) 0x0000000000000000#64

/-- `gdt_init`, for a table at `gdtAt`: 6 entries of 8 bytes. -/
def gdtInit (gdtAt : BitVec 32) (s : Segments) : Segments :=
  let gp : GdtPtr := ⟨BitVec.ofNat 16 (6 * 8 - 1), gdtAt⟩
  { s with gdt := gdtEntries s.gdt, gp := gp, gdtr := gp, cs := 0x08#16, data := 0x10#16 }

/-- The word `gdt_set_tss_entry` builds. -/
def encodeTss (base limit : BitVec 32) : BitVec 64 :=
  let entry : BitVec 64 := 0#64
  let entry := entry ||| (limit &&& 0xFFFF#32).setWidth 64
  let entry := entry ||| (base &&& 0xFFFFFF#32).setWidth 64 <<< 16
  let entry := entry ||| 0x89#64 <<< 40
  let entry := entry ||| ((limit >>> 16) &&& 0xF#32).setWidth 64 <<< 48
  entry ||| ((base >>> 24) &&& 0xFF#32).setWidth 64 <<< 56

/-- `gdt_set_tss_entry` -/
def gdtSetTssEntry (gdt : Gdt) (base limit : BitVec 32) : Gdt :=
  gdt.set 5 (encodeTss base limit)

/-- `tss_init`, for a TSS at `tssAt`. -/
def tssInit (tssAt : BitVec 32) (s : Segments) : Segments :=
  { s with
    tss := ⟨0#32, kernelDs.setWidth 32, BitVec.ofNat 16 tssSize⟩
    gdt := gdtSetTssEntry s.gdt tssAt (BitVec.ofNat 32 (tssSize - 1))
    tr := tssSel }

/-- `tss_set_kernel_stack` -/
def tssSetKernelStack (s : Segments) (esp0 : BitVec 32) : Segments :=
  { s with tss := { s.tss with esp0 := esp0 } }

/-! ## 3. The TSS descriptor -/

/-- The fields of the descriptor. -/
def tssFields (base limit : BitVec 32) : List (BitField 64) :=
  [⟨0, 16, limit.extractLsb' 0 16, by decide⟩, ⟨16, 24, base.extractLsb' 0 24, by decide⟩,
    ⟨40, 8, 0x89#8, by decide⟩, ⟨48, 4, limit.extractLsb' 16 4, by decide⟩,
    ⟨56, 8, base.extractLsb' 24 8, by decide⟩]

theorem tssFields_apart (base limit : BitVec 32) : (tssFields base limit).Pairwise BitField.Apart := by
  simp [tssFields, BitField.Apart, BitField.Off]

theorem encodeTss_eq (base limit : BitVec 32) :
    encodeTss base limit = BitField.assemble (tssFields base limit) := by
  have hlow : (limit &&& 0xFFFF#32).setWidth 64 = (limit.extractLsb' 0 16).setWidth 64 :=
    setWidth_mask 64 limit 16
  have hbase : (base &&& 0xFFFFFF#32).setWidth 64 = (base.extractLsb' 0 24).setWidth 64 :=
    setWidth_mask 64 base 24
  have hhigh : ((limit >>> 16) &&& 0xF#32).setWidth 64 = (limit.extractLsb' 16 4).setWidth 64 :=
    setWidth_shift_mask 64 limit 16 4
  have htop : ((base >>> 24) &&& 0xFF#32).setWidth 64 = (base.extractLsb' 24 8).setWidth 64 :=
    setWidth_shift_mask 64 base 24 8
  rw [encodeTss, hlow, hbase, hhigh, htop]
  simp [BitField.assemble, BitField.orAll, BitField.word, tssFields]

/-- What the descriptor decodes to, for any limit. -/
theorem encodeTss_decode (base limit : BitVec 32) :
    decode (encodeTss base limit) = ⟨base, limit.extractLsb' 0 20, 0x89#8, 0#4⟩ := by
  have hapart := tssFields_apart base limit
  have hread : ∀ f ∈ tssFields base limit,
      (encodeTss base limit).extractLsb' f.pos f.width = f.bits := fun f hf => by
    rw [encodeTss_eq]
    exact BitField.extract_assemble hapart hf
  simp only [tssFields, List.forall_mem_cons] at hread
  obtain ⟨hlow, hbase, haccess, hhigh, htop, -⟩ := hread
  have hflags : (encodeTss base limit).extractLsb' 52 4 = 0#4 := by
    rw [encodeTss_eq]
    exact BitField.extract_assemble_gap (by simp [tssFields, BitField.Off])
  have hjoin : base.extractLsb' 24 8 ++ base.extractLsb' 0 24 = base :=
    (BitVec.extractLsb'_append_extractLsb'_eq_extractLsb' rfl).trans BitVec.extractLsb'_eq_self
  have hlimit : limit.extractLsb' 16 4 ++ limit.extractLsb' 0 16 = limit.extractLsb' 0 20 :=
    BitVec.extractLsb'_append_extractLsb'_eq_extractLsb' rfl
  rw [decode, hlow, hbase, haccess, hhigh, htop, hflags, hjoin, hlimit]

/-- **The TSS descriptor is lossless.**  For every table, every base and every limit below 2^20, entry 5
decodes to exactly that base and limit, with access byte 0x89 and no flags, and the other entries are what
they were. -/
theorem tss_descriptor_lossless (gdt : Gdt) (base limit : BitVec 32) (hlimit : limit.toNat < 2 ^ 20) :
    (decode (gdtSetTssEntry gdt base limit)[5]).base = base ∧
    (decode (gdtSetTssEntry gdt base limit)[5]).limit.toNat = limit.toNat ∧
    (decode (gdtSetTssEntry gdt base limit)[5]).access = 0x89#8 ∧
    (decode (gdtSetTssEntry gdt base limit)[5]).flags = 0#4 ∧
    ∀ (i : Nat) (hi : i < 6), i ≠ 5 → (gdtSetTssEntry gdt base limit)[i] = gdt[i] := by
  have hentry : (gdtSetTssEntry gdt base limit)[5] = encodeTss base limit := by
    simp [gdtSetTssEntry]
  rw [hentry, encodeTss_decode]
  refine ⟨rfl, ?_, rfl, rfl, fun i hi hne => ?_⟩
  · rw [BitVec.extractLsb'_toNat, Nat.shiftRight_zero, Nat.mod_eq_of_lt hlimit]
  · rw [gdtSetTssEntry, Vector.getElem_set_ne _ _ hne.symm]

/-- The largest limit, at an address with all of its fields in use, in the table of `gdt_init`. -/
theorem tss_descriptor_lossless_max :
    (decode (gdtSetTssEntry (gdtEntries (Vector.replicate 6 0#64)) 0xC0123456#32 0xFFFFF#32)[5]) =
      ⟨0xC0123456#32, 0xFFFFF#20, 0x89#8, 0#4⟩ ∧
    (gdtSetTssEntry (gdtEntries (Vector.replicate 6 0#64)) 0xC0123456#32 0xFFFFF#32)[4] =
      0x00CFF2000000FFFF#64 := by
  obtain ⟨hbase, hlimit, haccess, hflags, hothers⟩ := tss_descriptor_lossless
    (gdtEntries (Vector.replicate 6 0#64)) 0xC0123456#32 0xFFFFF#32 (by decide)
  refine ⟨?_, hothers 4 (by decide) (by decide)⟩
  rw [Descriptor.mk.injEq]
  exact ⟨hbase, BitVec.eq_of_toNat_eq hlimit, haccess, hflags⟩

/-! ## 4. After boot -/

/-- The descriptor a selector selects. -/
def Segments.selected (s : Segments) (selector : BitVec 16) : Option Descriptor :=
  (s.gdt[(selector >>> 3).toNat]?).map decode

/-- All of the address space: 2^20 units of 4 KiB from 0. -/
def flat (access : BitVec 8) : Descriptor := ⟨0#32, 0xFFFFF#20, access, 0xC#4⟩

/-- The selectors of `tss.h` and what they select. -/
def segments : List (BitVec 16 × Descriptor) :=
  [(kernelCs, flat 0x9A#8), (kernelDs, flat 0x92#8), (userCs, flat 0xFA#8), (userDs, flat 0xF2#8)]

/-- What the kernel relies on: the TSS is at `tssAt`, and `esp0` is the stack of ring 0. -/
structure Booted (tssAt esp0 : BitVec 32) (s : Segments) : Prop where
  segment : ∀ p ∈ segments, s.selected p.1 = some p.2
  task : s.selected s.tr = some ⟨tssAt, BitVec.ofNat 20 (tssSize - 1), 0x89#8, 0#4⟩
  stack : s.tss.ss0 = kernelDs.setWidth 32 ∧ s.tss.esp0 = esp0

/-- Nothing is left of the table there was. -/
theorem gdtEntries_eq (gdt : Gdt) : gdtEntries gdt = #v[0x0000000000000000#64, 0x00CF9A000000FFFF#64,
    0x00CF92000000FFFF#64, 0x00CFFA000000FFFF#64, 0x00CFF2000000FFFF#64, 0x0000000000000000#64] := by
  refine Vector.ext (fun i hi => ?_)
  have hcases : i = 0 ∨ i = 1 ∨ i = 2 ∨ i = 3 ∨ i = 4 ∨ i = 5 := by omega
  rcases hcases with rfl | rfl | rfl | rfl | rfl | rfl <;> simp [gdtEntries, gdtSetEntry]

theorem gdtInit_selected (gdtAt : BitVec 32) (s : Segments) :
    ∀ p ∈ segments, (gdtInit gdtAt s).selected p.1 = some p.2 := by
  simp only [Segments.selected, gdtInit, gdtEntries_eq]
  decide

/-- The TSS has an entry of its own. -/
theorem tssInit_selected (tssAt : BitVec 32) (s : Segments) {selector : BitVec 16}
    (h : (selector >>> 3).toNat ≠ 5) :
    (tssInit tssAt s).selected selector = s.selected selector := by
  rw [Segments.selected, Segments.selected, tssInit, gdtSetTssEntry, Vector.getElem?_set_ne _ h.symm]

theorem tssInit_booted (gdtAt tssAt : BitVec 32) (s : Segments) :
    Booted tssAt 0#32 (tssInit tssAt (gdtInit gdtAt s)) where
  segment p hp := by
    have hne : ∀ p ∈ segments, (p.1 >>> 3).toNat ≠ 5 := by decide
    rw [tssInit_selected tssAt _ (hne p hp), gdtInit_selected gdtAt s p hp]
  task := by
    have hentry : (tssInit tssAt (gdtInit gdtAt s)).selected (tssInit tssAt (gdtInit gdtAt s)).tr =
        some (decode (encodeTss tssAt (BitVec.ofNat 32 (tssSize - 1)))) := by
      simp [Segments.selected, tssInit, gdtSetTssEntry, tssSel]
    rw [hentry, encodeTss_decode]
    rfl
  stack := ⟨rfl, rfl⟩

theorem Booted.setKernelStack {tssAt esp0 : BitVec 32} {s : Segments} (h : Booted tssAt esp0 s)
    (stack : BitVec 32) : Booted tssAt stack (tssSetKernelStack s stack) :=
  ⟨h.segment, h.task, h.stack.1, rfl⟩

/-- **After boot**, however often the kernel stack is set: it is the one that was set last. -/
theorem booted_run (gdtAt tssAt : BitVec 32) (s : Segments) (tops : List (BitVec 32)) :
    Booted tssAt (tops.getLastD 0#32)
      (tops.foldl tssSetKernelStack (tssInit tssAt (gdtInit gdtAt s))) := by
  induction tops using List.reverseRecOn with
  | nil => exact tssInit_booted gdtAt tssAt s
  | append_singleton tops stack ih =>
    rw [List.foldl_append, List.getLastD_concat]
    exact ih.setKernelStack stack

/-- Every selector of `tss.h` asks for the privilege level of its descriptor. -/
theorem segments_rpl_eq_dpl : ∀ p ∈ segments, p.1.extractLsb' 0 2 = p.2.dpl := by decide

end JarvOs.Core
