/-
# The virtual memory manager (`kernel/memory/vmm.c`)

The machine is physical memory, the two control registers paging looks at, and the bitmap of
`pmm.c`.  Page directories and page tables are ORDINARY memory: every access below, also the
accesses of `vmm.c` to its own tables, goes through the walk of the directory in CR3, and an
address the walk does not resolve is a page fault (`none`).  So a function that edits the tables
under its own feet is modelled doing exactly that.

CR4 is never written by this kernel, so there are no 4 MB pages and no global pages, and CR0.WP
is clear, so ring 0 writes through read-only entries.  The TLB is not modelled here: every function
that changes a present entry flushes it (`invlpg`), and loading CR3 flushes the rest (`Memory.Tlb`).
-/
import JarvOs.Memory.Pmm
import JarvOs.Lib.Paging

namespace JarvOs.Memory

open JarvOs.Lib

/-! ## 1. The machine -/

/-- Physical memory, CR0.PG, CR3 and `page_bitmap`. -/
structure Machine where
  mem : Mem
  paging : Bool
  cr3 : Nat
  bitmap : Bitmap

namespace Machine

/-- The page of the directory in CR3. -/
def dir (m : Machine) : Nat := m.cr3 / 4096

/-- The physical address behind an address the CPU uses. -/
def translate (m : Machine) (va : Nat) : Option Nat :=
  if m.paging then (tables m.mem).walk m.dir va else some va

/-- A 32-bit store: all four bytes are translated before the first is written. -/
def put32 (m : Machine) (va v : Nat) : Option Machine := do
  let a₀ ← m.translate va
  let a₁ ← m.translate (add32 va 1)
  let a₂ ← m.translate (add32 va 2)
  let a₃ ← m.translate (add32 va 3)
  some { m with mem := setByte (setByte (setByte (setByte m.mem a₀ (byteOf v 0)) a₁ (byteOf v 1))
    a₂ (byteOf v 2)) a₃ (byteOf v 3) }

end Machine

/-- The machine's memory as code running on it sees it. -/
def mmu : ByteEnv Machine where
  get m va := (m.translate va).map m.mem
  put m va x := (m.translate va).map (fun a => { m with mem := setByte m.mem a x })
  put32 := Machine.put32

namespace Machine

/-- `*(uint32_t*)va` -/
def load32 (m : Machine) (va : Nat) : Option Nat := mmu.get32 m va

/-- `*(uint32_t*)va = v` -/
def store32 (m : Machine) (va v : Nat) : Option Machine := mmu.put32 m va v

/-- `pmm_alloc_page` on the machine's bitmap. -/
def allocPage (m : Machine) : Option (Nat × Machine) :=
  (pmmAllocPage m.bitmap).map (fun r => (r.1, { m with bitmap := r.2 }))

/-- `pmm_free_page` on the machine's bitmap. -/
def freePage (m : Machine) (addr : Nat) : Option Machine :=
  (pmmFreePage m.bitmap addr).map (fun bm => { m with bitmap := bm })

/-- `for (i = ...; n times; i++) base[i] = f(i);` -/
def fillWords (base : Nat) (f : Nat → Nat) : Machine → Nat → Nat → Option Machine
  | m, _, 0 => some m
  | m, i, n + 1 => (m.store32 (add32 base (4 * i)) (f i)).bind (fun m => fillWords base f m (i + 1) n)

/-- `for (i = ...; n times; i++) dest[i] = src[i];` -/
def copyWords (dest src : Nat) : Machine → Nat → Nat → Option Machine
  | m, _, 0 => some m
  | m, i, n + 1 => do
    let v ← m.load32 (add32 src (4 * i))
    let m ← m.store32 (add32 dest (4 * i)) v
    copyWords dest src m (i + 1) n

end Machine

/-! ## 2. Where the linker puts things -/

/-- `PAGE_PRESENT` -/
abbrev pagePresent : Nat := 0x001

/-- `PAGE_WRITABLE` -/
abbrev pageWritable : Nat := 0x002

/-- `PAGE_USER` -/
abbrev pageUser : Nat := 0x004

/-- The pages of `kernel_page_directory` and of the twenty tables of `kernel_page_table`, and the
address of `process_entry_trampoline`.  Both arrays are page aligned, do not overlap, lie in the
80 MB `vmm_init` maps, and none of their pages is a frame `pmm_init` leaves free (pages 512 to
16383, 2 MB to 64 MB). -/
structure Layout where
  kpd : Nat
  kpt : Nat
  trampoline : Nat
  kpd_low : kpd < 20480
  kpt_low : kpt + 20 ≤ 20480
  apart : kpd < kpt ∨ kpt + 20 ≤ kpd
  kpd_frame : kpd < 512 ∨ 16384 ≤ kpd
  kpt_frame : kpt + 20 ≤ 512 ∨ 16384 ≤ kpt
  trampoline_lt : trampoline < 2 ^ 32

/-! ## 3. The functions -/

/-- `vmm_switch_directory` -/
def vmmSwitchDirectory (m : Machine) (pageDir : Nat) : Machine := { m with cr3 := pageDir }

/-- `vmm_get_current_directory` -/
def vmmGetCurrentDirectory (m : Machine) : Nat := m.cr3

/-- `vmm_enable_paging` -/
def vmmEnablePaging (m : Machine) : Machine := { m with paging := true }

/-- `vmm_init`.  The clearing loop over `kernel_page_table[i][j]` and the filling loop over
`kernel_page_table[i / 1024][i % 1024]` both run over its 20 * 1024 words in order. -/
def vmmInit (L : Layout) (m : Machine) : Option Machine := do
  let bm ← pmmInit
  let m := { m with bitmap := bm }
  let m ← Machine.fillWords (4096 * L.kpd) (fun _ => 0) m 0 1024
  let m ← Machine.fillWords (4096 * L.kpt) (fun _ => 0) m 0 (20 * 1024)
  let m ← Machine.fillWords (4096 * L.kpt) (fun i => mul32 i 0x1000 ||| 0x001 ||| 0x002) m 0
    (80 * 1024 * 1024 / 0x1000)
  let m ← Machine.fillWords (4096 * L.kpd)
    (fun i => add32 (4096 * L.kpt) (mul32 i 0x1000) ||| 0x001 ||| 0x002) m 0 20
  let m := vmmSwitchDirectory m (4096 * L.kpd)
  some (vmmEnablePaging m)

/-- `vmm_create_address_space`: the new directory, or 0. -/
def vmmCreateAddressSpace (L : Layout) (m : Machine) : Option (Nat × Machine) := do
  let (phys, m) ← m.allocPage
  if phys = 0 then some (0, m)
  else
    let m ← Machine.fillWords phys (fun _ => 0) m 0 1024
    let m ← Machine.copyWords phys (4096 * L.kpd) m 0 20
    some (phys, m)

/-- The first half of `vmm_map_page`: the directory entry for index `i`, with a fresh empty table
behind it if there was none; `none` inside when memory is out. -/
def vmmEnsureTable (m : Machine) (pageDir pageDirIndex : Nat) :
    Option (Option Nat × Machine) := do
  let pde ← m.load32 (add32 pageDir (4 * pageDirIndex))
  if pde &&& pagePresent = 0 then
    let (ptPhys, m) ← m.allocPage
    if ptPhys = 0 then some (none, m)
    else
      let m ← Machine.fillWords ptPhys (fun _ => 0) m 0 1024
      let pde := ptPhys ||| pagePresent ||| pageWritable
      let m ← m.store32 (add32 pageDir (4 * pageDirIndex)) pde
      some (some pde, m)
  else some (some pde, m)

/-- `vmm_map_page`: 0, or -1 when no page table can be allocated. -/
def vmmMapPage (m : Machine) (vaddr physAddr flags : Nat) : Option (Int × Machine) := do
  let pageDirIndex := vaddr >>> 22
  let pageTableIndex := (vaddr >>> 12) &&& 0x3FF
  match ← vmmEnsureTable m (vmmGetCurrentDirectory m) pageDirIndex with
  | (none, m) => some (-1, m)
  | (some pde, m) =>
    let pt := pde &&& 0xFFFFF000
    let m ← m.store32 (add32 pt (4 * pageTableIndex))
      ((physAddr &&& 0xFFFFF000) ||| (flags &&& 0xFFF) ||| pagePresent)
    some (0, m)

/-- `vmm_unmap_page` -/
def vmmUnmapPage (m : Machine) (vaddr : Nat) : Option Machine := do
  let pageDirIndex := vaddr >>> 22
  let pageTableIndex := (vaddr >>> 12) &&& 0x3FF
  let pde ← m.load32 (add32 (vmmGetCurrentDirectory m) (4 * pageDirIndex))
  if pde &&& pagePresent = 0 then some m
  else m.store32 (add32 (pde &&& 0xFFFFF000) (4 * pageTableIndex)) 0

/-- One round of the loop of `vmm_mark_user_range`. -/
def markUserPage (m : Machine) (dir addr : Nat) : Option Machine := do
  let pdi := addr >>> 22
  let pti := (addr >>> 12) &&& 0x3FF
  let pde ← m.load32 (add32 dir (4 * pdi))
  if pde &&& pagePresent = 0 then some m
  else
    let m ← m.store32 (add32 dir (4 * pdi)) ((← m.load32 (add32 dir (4 * pdi))) ||| pageUser)
    let pt := pde &&& 0xFFFFF000
    m.store32 (add32 pt (4 * pti)) ((← m.load32 (add32 pt (4 * pti))) ||| pageUser)

/-- The loop of `vmm_mark_user_range`, with fuel. -/
def markUserPages (dir stop : Nat) : Machine → Nat → Nat → Option Machine
  | _, 0, _ => none
  | m, fuel + 1, addr =>
    if addr < stop then
      (markUserPage m dir addr).bind (fun m => markUserPages dir stop m fuel (add32 addr 0x1000))
    else some m

/-- `vmm_mark_user_range`.  There are 2^20 pages, so a loop that has not ended after one round
for each never ends. -/
def vmmMarkUserRange (m : Machine) (start len : Nat) : Option Machine :=
  let addr := start &&& 0xFFFFF000
  let stop := add32 (add32 start len) 0xFFF &&& 0xFFFFF000
  markUserPages (vmmGetCurrentDirectory m) stop m (2 ^ 20 + 1) addr

/-- `vmm_alloc_map_page`: `virt_addr`, or 0. -/
def vmmAllocMapPage (m : Machine) (vaddr flags : Nat) : Option (Nat × Machine) := do
  let (physAddr, m) ← m.allocPage
  if physAddr = 0 then some (0, m)
  else
    let (r, m) ← vmmMapPage m vaddr physAddr flags
    if r ≠ 0 then
      let m ← m.freePage physAddr
      some (0, m)
    else some (vaddr, m)

/-- `vmm_get_physical_address`: the frame behind an address, or 0 where the directory has no table. -/
def vmmGetPhysicalAddress (m : Machine) (vaddr : Nat) : Option Nat := do
  let pageDirIndex := vaddr >>> 22
  let pageTableIndex := (vaddr >>> 12) &&& 0x3FF
  let pde ← m.load32 (add32 (vmmGetCurrentDirectory m) (4 * pageDirIndex))
  if pde &&& pagePresent = 0 then some 0
  else
    let entry ← m.load32 (add32 (pde &&& 0xFFFFF000) (4 * pageTableIndex))
    some (entry &&& 0xFFFFF000)

end JarvOs.Memory
