/-
# What a process takes and gives back

`scheduler_create_process` takes a PCB from the pool and two frames from the bitmap, one for the
page directory and one for the stack.  Here is the account of both: PCBs on the free list plus live
pool processes are 64, and the frames in use are those of boot plus the two of every live process.

The account is right as long as nothing ends (`resources_kept`).  Neither way to end gives
everything back: `sys_exit` returns the PCB and NO frame, and a process whose entry function returns
gives back nothing at all.  And a create that finds exactly one frame left keeps it for a directory
that no process has.
-/
import JarvOs.Process.Endings
import JarvOs.Process.IdentityMap

namespace JarvOs.Process

open JarvOs.Lib JarvOs.Memory

/-! ## 1. The account -/

/-- The frames whose bit is 0. -/
def usedFrames (bm : Bitmap) : Finset Nat := Finset.Ico 256 16384 \ freeFrames bm

/-- The frames a PCB records: page directory and stack page. -/
def Pcb.frames (c : Pcb) : Finset Nat := {c.pageDirectory / 4096, c.stackPhys / 4096}

namespace LifeRun

/-- The bitmap of the run. -/
abbrev bitmap (st : LifeRun) : Bitmap := st.run.kernel.mach.bitmap

/-- The processes of the pool that have not ended, if `free` is what is on the free list. -/
def live (st : LifeRun) (free : List Proc) : Finset (Fin 64) :=
  Finset.univ.filter (fun i => .pool i ∉ free ∧ st.ended (.pool i) = false)

/-- The frames they own. -/
def owned (st : LifeRun) (free : List Proc) : Finset Nat :=
  (st.live free).biUnion (fun i => (st.sched.pcb (.pool i)).frames)

end LifeRun

/-- **Nothing is lost**: every PCB is free or of a live process, and every frame that is in use now
and was not after boot (`m`) is owned by a live process. -/
def ResourcesKept (m : Machine) (st : LifeRun) : Prop :=
  ∃ free, Chain st.sched.next st.sched.freeList free ∧ free.length + (st.live free).card = 64 ∧
    (usedFrames st.bitmap).card = (usedFrames m.bitmap).card + (st.owned free).card

/-- No process ends, and no process is created when one frame is left (unless no PCB is). -/
def Lossless (st : LifeRun) : LifeOp → Prop
  | .exit => False
  | .call .entryReturn => False
  | .call (.create ..) | .call (.fork _) =>
    st.sched.freeList ≠ none → (freeFrames st.bitmap).card ≠ 1
  | _ => True

/-! ## 2. Counting -/

variable {L : Layout} {m : Machine} {st st' : LifeRun} {ls ls' : Lists} {free free' : List Proc}
  {spaces : List Nat}

theorem mem_live {i : Fin 64} :
    i ∈ st.live free ↔ .pool i ∉ free ∧ st.ended (.pool i) = false := by
  simp [LifeRun.live]

/-- A list without the idle process and without repetition is a set of indices. -/
theorem card_pool : ∀ {l : List Proc}, l.Nodup → .idle ∉ l →
    (Finset.univ.filter (fun i : Fin 64 => .pool i ∈ l)).card = l.length
  | [], _, _ => by simp
  | .idle :: _, _, h => absurd List.mem_cons_self h
  | .pool i :: l, hnd, h => by
    obtain ⟨hi, hnd⟩ := List.nodup_cons.mp hnd
    have hset : Finset.univ.filter (fun j : Fin 64 => .pool j ∈ .pool i :: l) =
        insert i (Finset.univ.filter (fun j : Fin 64 => .pool j ∈ l)) := by
      ext j
      simp
    rw [hset, Finset.card_insert_of_notMem (by simpa using hi), List.length_cons,
      card_pool hnd (fun hl => h (List.mem_cons_of_mem _ hl))]

/-- **The 64 PCBs**, while nobody has ended. -/
theorem card_live (hnd : free.Nodup) (hidle : .idle ∉ free) (hend : ∀ p, st.ended p = false) :
    free.length + (st.live free).card = 64 := by
  have hlive : st.live free = Finset.univ.filter (fun i : Fin 64 => ¬ .pool i ∈ free) := by
    ext i
    simp [mem_live, hend]
  rw [hlive, ← card_pool hnd hidle, Finset.card_filter_add_card_filter_not]
  rfl

/-- The frames of the account: in use are those of boot and, apart from them, two for every live
process. -/
structure Books (m : Machine) (st : LifeRun) (free : List Proc) : Prop where
  used : usedFrames st.bitmap = usedFrames m.bitmap ∪ st.owned free
  apart : Disjoint (usedFrames m.bitmap) (st.owned free)
  two : (st.owned free).card = 2 * (st.live free).card

theorem Books.card (h : Books m st free) :
    (usedFrames st.bitmap).card = (usedFrames m.bitmap).card + (st.owned free).card := by
  rw [h.used, Finset.card_union_of_disjoint h.apart]

theorem owned_congr (hlive : st'.live free' = st.live free)
    (hframes : ∀ i ∈ st.live free, (st'.sched.pcb (.pool i)).frames = (st.sched.pcb (.pool i)).frames) :
    st'.owned free' = st.owned free := by
  rw [LifeRun.owned, hlive]
  exact Finset.biUnion_congr rfl hframes

theorem Books.congr (h : Books m st free) (hfree : freeFrames st'.bitmap = freeFrames st.bitmap)
    (hlive : st'.live free' = st.live free)
    (hframes : ∀ i ∈ st.live free,
      (st'.sched.pcb (.pool i)).frames = (st.sched.pcb (.pool i)).frames) : Books m st' free' := by
  have howned := owned_congr hlive hframes
  refine ⟨?_, howned ▸ h.apart, ?_⟩
  · rw [usedFrames, hfree, howned]
    exact h.used
  · rw [howned, hlive]
    exact h.two

/-- **A new process** takes two frames that were free. -/
theorem Books.hire (h : Books m st free) {i : Fin 64} {d q : Nat} (hi : i ∉ st.live free)
    (hd : d ∈ freeFrames st.bitmap) (hq : q ∈ (freeFrames st.bitmap).erase d)
    (hfree : freeFrames st'.bitmap = ((freeFrames st.bitmap).erase d).erase q)
    (hlive : st'.live free' = insert i (st.live free))
    (hframes : ∀ j ∈ st.live free,
      (st'.sched.pcb (.pool j)).frames = (st.sched.pcb (.pool j)).frames)
    (hown : (st'.sched.pcb (.pool i)).frames = {d, q}) : Books m st' free' := by
  obtain ⟨hqd, hq'⟩ := Finset.mem_erase.mp hq
  have howned : st'.owned free' = {d, q} ∪ st.owned free := by
    rw [LifeRun.owned, hlive, Finset.biUnion_insert, hown]
    congr 1
    exact Finset.biUnion_congr rfl hframes
  have hused : usedFrames st'.bitmap = {d, q} ∪ usedFrames st.bitmap := by
    rw [usedFrames, hfree, Finset.sdiff_erase (Finset.mem_Ico.mpr (isFrame_of_free hq')),
      Finset.sdiff_erase (Finset.mem_Ico.mpr (isFrame_of_free hd)), Finset.insert_comm,
      Finset.insert_union, Finset.singleton_union]
    rfl
  -- a free frame is not in use
  have hnot : ∀ x ∈ freeFrames st.bitmap, x ∉ usedFrames m.bitmap ∧ x ∉ st.owned free := by
    intro x hx
    have : x ∉ usedFrames st.bitmap := fun hu => (Finset.mem_sdiff.mp hu).2 hx
    rw [h.used, Finset.mem_union, not_or] at this
    exact this
  refine ⟨?_, ?_, ?_⟩
  · rw [hused, howned, h.used, Finset.union_left_comm]
  · rw [howned, Finset.disjoint_union_right]
    refine ⟨Finset.disjoint_right.mpr fun x hx => ?_, h.apart⟩
    rcases Finset.mem_insert.mp hx with rfl | hx
    · exact (hnot x hd).1
    · rw [Finset.mem_singleton.mp hx]
      exact (hnot q hq').1
  · have hdisj : Disjoint {d, q} (st.owned free) := by
      refine Finset.disjoint_left.mpr fun x hx => ?_
      rcases Finset.mem_insert.mp hx with rfl | hx
      · exact (hnot x hd).2
      · rw [Finset.mem_singleton.mp hx]
        exact (hnot q hq').2
    rw [howned, hlive, Finset.card_union_of_disjoint hdisj, Finset.card_insert_of_notMem hi, h.two,
      Finset.card_pair hqd.symm]
    ring

/-! ## 3. One call -/

/-- The account, and what the calls need to keep it: the tables are in order, the directories in the
PCBs are among those created, and nobody has ended. -/
structure ResInv (L : Layout) (m : Machine) (st : LifeRun) (ls : Lists) (spaces : List Nat) :
    Prop where
  sched : SchedInv st.sched st.running ls
  current : st.sched.current = some st.running
  ended : ∀ p, st.ended p = false
  mach : MachInv L Identity st.run.kernel.mach spaces
  idle : (st.sched.pcb .idle).pageDirectory = 0
  dirs : ∀ i, .pool i ∉ ls .free → ∃ d ∈ spaces, (st.sched.pcb (.pool i)).pageDirectory = 4096 * d
  books : Books m st (ls .free)

theorem ResInv.kept (h : ResInv L m st ls spaces) : ResourcesKept m st :=
  ⟨ls .free, h.sched.placed.links .free (by simp),
    card_live (h.sched.placed.exclusive.nodup .free) h.sched.idle_not_free h.ended, h.books.card⟩

theorem created_kernel (st : SchedRun) (r : Option Proc × Kernel) : (st.created r).kernel = r.2 := by
  obtain ⟨r, k⟩ := r
  cases r <;> rfl

theorem ticked_kernel (st : SchedRun) (esp : Nat) (r : Option Switch × Kernel) :
    (st.ticked esp r).kernel = r.2 := by
  obtain ⟨sw, k⟩ := r
  cases sw <;> rfl

/-- A process is not free after the create that made it. -/
theorem Created.not_free {s s' : Sched} {running : Proc} {r : Option Proc}
    (hcr : Created s s' ls ls' r) (h' : SchedInv s' running ls') {p : Proc} (hr : r = some p) :
    p ∉ ls' .free := by
  have hready : p ∈ ls' (.ready (s'.pcb p).priority) := by
    rw [hcr.ready, hr]
    simp
  exact h'.placed.exclusive.not_mem hready (by simp)

/-- The live processes after a create: those of before, and the new one. -/
theorem live_created {s s' : Sched} {running : Proc} {r : Option Proc} {k' : Kernel}
    (hcr : Created s s' ls ls' r) (h' : SchedInv s' running ls') (hend : ∀ p, st.ended p = false)
    (i : Fin 64) : i ∈ (st.created (r, k')).live (ls' .free) ↔
      i ∈ st.live (ls .free) ∨ r = some (.pool i) := by
  have hend' : (st.created (r, k')).ended (.pool i) = false := by simp [LifeRun.created, hend]
  simp only [mem_live, hend', hend, and_true]
  constructor
  · intro hi
    rcases Classical.em (Proc.pool i ∈ ls .free) with hf | hf
    · exact Or.inr (hcr.taken _ hf hi)
    · exact Or.inl hf
  · rintro (hi | hr)
    · exact fun hf => hi (hcr.free _ hf)
    · exact hcr.not_free h' hr

theorem frames_created {s s' : Sched} {r : Option Proc} (hcr : Created s s' ls ls' r) {i : Fin 64}
    (hi : i ∈ st.live (ls .free)) : (s'.pcb (.pool i)).frames = (s.pcb (.pool i)).frames :=
  field_of_body (hcr.body _ (mem_live.mp hi).1) Pcb.frames (fun _ => rfl)

/-- What is left to show of a create: where the new process got its directory from, and the
frames. -/
theorem ResInv.created (h : ResInv L m st ls spaces) {r : Option Proc} {k' : Kernel}
    (h' : SchedInv k'.sched st.running ls') (hcr : Created st.sched k'.sched ls ls' r) {dir : Nat}
    (hM : MachInv L Identity k'.mach (addSpace dir spaces))
    (hnew : ∀ i, r = some (.pool i) → ∃ d ∈ addSpace dir spaces,
      (k'.sched.pcb (.pool i)).pageDirectory = 4096 * d)
    (hbooks : Books m (st.created (r, k')) (ls' .free)) :
    ResInv L m (st.created (r, k')) ls' (addSpace dir spaces) := by
  have hfield : ∀ x, x ∉ ls .free →
      (k'.sched.pcb x).pageDirectory = (st.sched.pcb x).pageDirectory :=
    fun x hx => field_of_body (hcr.body x hx) Pcb.pageDirectory (fun _ => rfl)
  obtain ⟨hs, hr⟩ := created_sched st.run (r, k')
  refine ⟨?_, ?_, fun q => by simp [LifeRun.created, h.ended], ?_, ?_, fun i hi => ?_, hbooks⟩
  · simp only [LifeRun.created, LifeRun.sched, LifeRun.running, hs, hr]
    exact h'
  · simp only [LifeRun.created, LifeRun.sched, LifeRun.running, hs, hr]
    exact hcr.current.trans h.current
  · simp only [LifeRun.created, created_kernel]
    exact hM
  · simp only [LifeRun.created, LifeRun.sched, hs]
    exact (hfield _ h.sched.idle_not_free).trans h.idle
  · have hi' : i ∈ (st.created (r, k')).live (ls' .free) :=
      mem_live.mpr ⟨hi, by simp [LifeRun.created, h.ended]⟩
    simp only [LifeRun.created, LifeRun.sched, hs]
    rcases (live_created hcr h' h.ended i).mp hi' with hi | hi
    · obtain ⟨d, hd, heq⟩ := h.dirs i (mem_live.mp hi).1
      exact ⟨d, mem_addSpace hd, (hfield _ (mem_live.mp hi).1).trans heq⟩
    · exact hnew i hi

/-- **A create** that does not meet the last frame. -/
theorem res_created (h : ResInv L m st ls spaces) {r : Option Proc × Kernel} {name : List UInt8}
    {entry arg : Nat} {prio : Priority}
    (hlast : st.sched.freeList ≠ none → (freeFrames st.bitmap).card ≠ 1)
    (hrun : schedulerCreateProcess L st.run.kernel name entry arg prio = some r) :
    ∃ ls' spaces', ResInv L m (st.created r) ls' spaces' := by
  obtain ⟨r, k'⟩ := r
  obtain ⟨ls', h', hcr⟩ := create_lists h.sched hrun
  have hs := (created_sched st.run (r, k')).1
  have hk := created_kernel st.run (r, k')
  have hlive : ∀ i, i ∈ (st.created (r, k')).live (ls' .free) ↔ _ := live_created hcr h' h.ended
  have hframes : ∀ i ∈ st.live (ls .free), ((st.created (r, k')).sched.pcb (.pool i)).frames =
      (st.sched.pcb (.pool i)).frames := by
    intro i hi
    simp only [LifeRun.created, LifeRun.sched, hs]
    exact frames_created hcr hi
  have hmem := processMemory_spec identity_spec h.mach
    (fun q hq => identity_pteOf (isFrame_of_free hq))
  rcases (schedulerCreateProcess_spec hmem name entry arg prio).1 _ hrun with
    ⟨-, heq⟩ | ⟨p, stack, hfree, ⟨hstep, -, -, hzero, htwo⟩, hcase⟩
  · -- no PCB was free: nothing has changed
    obtain ⟨rfl, rfl⟩ := Prod.mk.inj heq
    have hsame : st.created (none, st.run.kernel) = st := by simp [LifeRun.created, SchedRun.created]
    exact ⟨ls, spaces, hsame.symm ▸ h⟩
  · simp only at hstep hzero htwo hcase
    rcases hcase with ⟨rfl, rfl⟩ | ⟨hstack, rfl, hphys⟩
    · -- memory was out, so no frame was taken
      obtain ⟨hone, hempty⟩ := hzero rfl
      have hne : (freeFrames st.run.kernel.mach.bitmap).card ≠ 1 :=
        hlast (by simp [LifeRun.sched, SchedRun.sched, hfree])
      have hout : freeFrames st.run.kernel.mach.bitmap = ∅ := Finset.card_eq_zero.mp (by omega)
      refine ⟨ls', _, h.created h' hcr hstep.inv (fun i hi => absurd hi (by simp))
        (h.books.congr ?_ ?_ hframes)⟩
      · simp only [LifeRun.bitmap, LifeRun.created, hk, hempty]
        exact hout.symm
      · ext i
        rw [hlive]
        simp
    · obtain ⟨d, hd, q, hq, hdir, hq', hbm⟩ := htwo hstack
      have hpf : p ∈ ls .free := (hcr.frame p rfl).1
      cases p with
      | idle => exact absurd hpf h.sched.idle_not_free
      | pool i =>
        refine ⟨ls', _, h.created h' hcr hstep.inv (fun j hj => ?_)
          (h.books.hire (i := i) (d := d) (q := q) ?_ hd hq ?_ ?_ hframes ?_)⟩
        · obtain rfl := Proc.pool.inj (Option.some.inj hj)
          refine ⟨d, ?_, hdir⟩
          rw [hdir, addSpace_page (isFrame_of_free hd).addr_ne_zero]
          exact List.mem_cons_self
        · exact fun hi => (mem_live.mp hi).1 hpf
        · simp only [LifeRun.bitmap, LifeRun.created, hk]
          exact hbm
        · ext j
          rw [hlive, Finset.mem_insert, Option.some.injEq, Proc.pool.injEq, or_comm, eq_comm]
        · simp only [LifeRun.created, LifeRun.sched, hs, Pcb.frames, hdir, hphys, hq',
            Nat.mul_div_cancel_left _ (show 0 < 4096 by norm_num)]

/-! ### Ticks -/

/-- A tick changes nothing the account is about. -/
structure SameBooks (st st' : LifeRun) : Prop where
  bitmap : st'.bitmap = st.bitmap
  ended : st'.ended = st.ended
  frames : ∀ x, (st'.sched.pcb x).frames = (st.sched.pcb x).frames

theorem SameBooks.live (h : SameBooks st st') : st'.live free = st.live free := by
  ext i
  rw [mem_live, mem_live, h.ended]

theorem SameBooks.owned (h : SameBooks st st') : st'.owned free = st.owned free :=
  owned_congr h.live (fun _ _ => h.frames _)

theorem SameBooks.books (h : SameBooks st st') (hb : Books m st free) : Books m st' free :=
  hb.congr (by rw [h.bitmap]) h.live (fun _ _ => h.frames _)

/-- Neither loses a process. -/
theorem SameBooks.kept_iff {running running' : Proc} (h : SameBooks st st')
    (hs : SchedInv st.sched running ls) (hs' : SchedInv st'.sched running' ls')
    (hfree : ls' .free = ls .free) : ResourcesKept m st' ↔ ResourcesKept m st := by
  have hl : Chain st.sched.next st.sched.freeList (ls .free) := hs.placed.links .free (by simp)
  have hl' : Chain st'.sched.next st'.sched.freeList (ls .free) :=
    hfree ▸ hs'.placed.links .free (by simp)
  constructor
  · rintro ⟨free, hc, hpcb, hcard⟩
    obtain rfl := hc.unique hl'
    rw [h.live] at hpcb
    rw [h.bitmap, h.owned] at hcard
    exact ⟨_, hl, hpcb, hcard⟩
  · rintro ⟨free, hc, hpcb, hcard⟩
    obtain rfl := hc.unique hl
    rw [← h.live] at hpcb
    rw [← h.bitmap, ← h.owned] at hcard
    exact ⟨_, hl', hpcb, hcard⟩

/-- A tick, of any history: the free list and the account are as before. -/
theorem ticked_books (h : SchedInv st.sched st.running ls) {d esp : Nat} {r : Option Switch × Kernel}
    (hrun : schedulerTick st.run.kernel d esp = some r) :
    ∃ ls', SchedInv (st.ticked esp r).sched (st.ticked esp r).running ls' ∧
      ls' .free = ls .free ∧ SameBooks st (st.ticked esp r) := by
  obtain ⟨sw, k'⟩ := r
  obtain ⟨curr, q, xs, -, -, h', hcur, hsw, hfields, hbm, -⟩ := tick_kernel h hrun
  obtain ⟨hs, hr⟩ := ticked_running st.run esp hcur (fun hn => h.running_of_current (hsw.mp hn))
  rw [← hs, ← hr] at h'
  refine ⟨_, h', chosen_free .., ?_, rfl, fun x => ?_⟩
  · simp only [LifeRun.bitmap, LifeRun.ticked, ticked_kernel]
    exact hbm
  · simp only [LifeRun.ticked, LifeRun.sched, hs, Pcb.frames, hfields]

theorem res_ticked (h : ResInv L m st ls spaces) {d esp : Nat} {r : Option Switch × Kernel}
    (hrun : schedulerTick st.run.kernel d esp = some r) :
    ∃ ls' spaces', ResInv L m (st.ticked esp r) ls' spaces' := by
  obtain ⟨ls', h', hfree, hsame⟩ := ticked_books h.sched hrun
  obtain ⟨sw, k'⟩ := r
  obtain ⟨curr, q, xs, hxs, -, hinv, hcur, hsw, hfields, -, hcr3, hmach⟩ := tick_kernel h.sched hrun
  obtain ⟨hs, hr⟩ :=
    ticked_running st.run esp hcur (fun hn => h.sched.running_of_current (hsw.mp hn))
  have hcurr : curr ∉ ls .free := by
    rw [← chosen_free st.sched ls q curr xs]
    exact hinv.not_mem hcur (by simp)
  refine ⟨ls', spaces, h', ?_, h.ended, ?_, ?_, fun i hi => ?_, ?_⟩
  · simp only [LifeRun.ticked, LifeRun.sched, LifeRun.running, hs, hr]
    exact hcur
  · simp only [LifeRun.ticked, ticked_kernel]
    rw [hmach (by simp [h.current]), hcr3]
    split
    · exact h.mach
    · rename_i hne
      obtain ⟨-, hdir⟩ := not_or.mp hne
      cases curr with
      | idle => exact absurd h.idle hdir
      | pool i =>
        obtain ⟨d', hd', heq⟩ := h.dirs i hcurr
        rw [heq]
        exact h.mach.switch (List.mem_cons_of_mem _ hd')
  · simp only [LifeRun.ticked, LifeRun.sched, hs, hfields]
    exact h.idle
  · rw [hfree] at hi
    simp only [LifeRun.ticked, LifeRun.sched, hs, hfields]
    exact h.dirs i hi
  · rw [hfree]
    exact hsame.books h.books

/-- **One call** that ends nobody and does not take the last frame. -/
theorem res_step (h : ResInv L m st ls spaces) {op : LifeOp} (hyield : op ≠ .call .yield)
    (hop : Lossless st op) (hst : lifeStep L st op = some st') :
    ∃ ls' spaces', ResInv L m st' ls' spaces' := by
  cases op with
  | exit => exact hop.elim
  | call op =>
    cases op with
    | create name entry arg priority =>
      obtain ⟨r, hrun, rfl⟩ := Option.map_eq_some_iff.mp hst
      exact res_created h hop hrun
    | fork parent =>
      obtain ⟨r, hrun, rfl⟩ := Option.map_eq_some_iff.mp hst
      exact res_created h hop hrun
    | tick d esp =>
      obtain ⟨r, hrun, rfl⟩ := Option.map_eq_some_iff.mp hst
      exact res_ticked h hrun
    | timer =>
      obtain rfl := Option.some.inj hst
      have hsame : SameBooks st { st with run := st.run.withSched st.sched.timerTick } :=
        ⟨rfl, rfl, fun _ => rfl⟩
      exact ⟨ls, spaces, timerTick_lists h.sched, h.current, h.ended, h.mach, h.idle, h.dirs,
        hsame.books h.books⟩
    | yield => exact absurd rfl hyield
    | sleep ms =>
      obtain ⟨-, hst⟩ := alive_eq_some hst
      obtain rfl := Option.some.inj hst
      have hdir := sleep_field Pcb.pageDirectory (fun _ _ _ => rfl) st.sched ms
      have hsame : SameBooks st
          { st with run := st.run.withSched (st.sched.schedulerSleepCurrent ms) } :=
        ⟨rfl, rfl, sleep_field Pcb.frames (fun _ _ _ => rfl) st.sched ms⟩
      refine ⟨ls, spaces, sleep_lists h.sched ms, (sleep_current st.sched ms).trans h.current, h.ended,
        h.mach, (hdir _).trans h.idle, fun i hi => ?_, hsame.books h.books⟩
      obtain ⟨d, hd, heq⟩ := h.dirs i hi
      exact ⟨d, hd, (hdir _).trans heq⟩
    | entryReturn => exact hop.elim

/-! ## 4. Every history -/

theorem res_boot {m₀ : Machine} (hboot : m₀.paging = false) (hinit : vmmInit L m₀ = some m) :
    ResInv L m (bootLife m) initLists [] := by
  obtain ⟨m', hm', hM, -⟩ := vmmInit_spec (L := L) hboot
  obtain rfl := Option.some.inj (hinit.symm.trans hm')
  have hlive : (bootLife m).live (initLists .free) = ∅ := by
    ext i
    simp [mem_live, pool_mem_initLists i]
  have howned : (bootLife m).owned (initLists .free) = ∅ := by
    rw [LifeRun.owned, hlive, Finset.biUnion_empty]
  refine ⟨schedulerInit_lists rfl, rfl, fun _ => rfl, hM, rfl,
    fun i hi => absurd (pool_mem_initLists i) hi, ?_, ?_, ?_⟩
  · rw [howned, Finset.union_empty]
    rfl
  · rw [howned]
    exact Finset.disjoint_empty_right _
  · rw [howned, hlive]
    rfl

theorem res_run {m₀ : Machine} (hboot : m₀.paging = false) (hinit : vmmInit L m₀ = some m)
    {ops : List LifeOp} (hops : ∀ op ∈ ops, op ≠ .call .yield)
    (hok : Along (lifeStep L) Lossless (bootLife m) ops)
    (hrun : run (lifeStep L) (bootLife m) ops = some st) :
    ∃ ls spaces, ResInv L m st ls spaces := by
  have hclean := (along_and ops (bootLife m)).mpr ⟨along_of_forall (bootLife m) hops, hok⟩
  exact hclean.inv (I := fun st => ∃ ls spaces, ResInv L m st ls spaces)
    (fun _ _ _ ⟨_, _, h⟩ hop hst => res_step h hop.1 hop.2 hst)
    ⟨initLists, [], res_boot hboot hinit⟩ hrun

theorem lossless_started {m₀ : Machine} (hinit : vmmInit sampleLayout blankMachine = some m₀) :
    Along (lifeStep sampleLayout) Lossless (bootLife m₀)
      [.call (.create [0x61] 0x100400 0 .normal), .call (.tick 10 0x8FF0)] := by
  obtain ⟨m', hm', -, -, hfree, -⟩ := vmmInit_spec (L := sampleLayout) (m := blankMachine) rfl
  obtain rfl := Option.some.inj (hinit.symm.trans hm')
  refine ⟨fun _ => ?_, fun _ _ => ⟨trivial, fun _ _ => trivial⟩⟩
  have hcard : (freeFrames (bootLife m₀).bitmap).card = 15872 := by
    rw [show (bootLife m₀).bitmap = m₀.bitmap from rfl, hfree, Nat.card_Ico]
  omega

/-- The process with the CPU is live. -/
theorem ResInv.running_live (h : ResInv L m st ls spaces) {i : Fin 64} (hr : st.running = .pool i) :
    i ∈ st.live (ls .free) :=
  mem_live.mpr ⟨h.sched.not_mem (hr ▸ h.current) (by simp), h.ended _⟩

theorem live_finish {i : Fin 64} (hr : st.running = .pool i)
    {r : SchedRun} (hfree : ∀ j ≠ i, .pool j ∈ free ↔ .pool j ∈ ls .free) :
    (st.finish r).live free = (st.live (ls .free)).erase i := by
  ext j
  rcases eq_or_ne j i with rfl | hj
  · simp [mem_live, LifeRun.finish, hr]
  · have hne : Proc.pool j ≠ .pool i := fun heq => hj (Proc.pool.inj heq)
    simp [mem_live, LifeRun.finish, hr, hj, hfree j hj, hne]

/-- **A process whose entry function returns** keeps its PCB for ever. -/
theorem return_loses (h : ResInv L m st ls spaces) {i : Fin 64} (hr : st.running = .pool i) :
    ¬ ResourcesKept m (st.finish (st.run.withSched (st.sched.entryReturned (.pool i)))) := by
  rintro ⟨free, hc, hpcb, -⟩
  have hnext : (st.sched.entryReturned (.pool i)).next = st.sched.next := setState_next _ _ _
  have hlinks : Chain st.sched.next st.sched.freeList (ls .free) :=
    h.sched.placed.links .free (by simp)
  have hfree : free = ls .free := Chain.unique (hnext ▸ hc) hlinks
  subst hfree
  have hmem := h.running_live hr
  have hcard := card_live (h.sched.placed.exclusive.nodup .free) h.sched.idle_not_free h.ended
  rw [live_finish hr (fun _ _ => Iff.rfl), Finset.card_erase_of_mem hmem] at hpcb
  have := Finset.card_pos.mpr ⟨i, hmem⟩
  omega

/-- **A process that calls `sys_exit`** keeps its two frames for ever. -/
theorem exit_loses (h : ResInv L m st ls spaces) {i : Fin 64} (hr : st.running = .pool i) :
    ¬ ResourcesKept m (st.finish (st.run.withSched st.sched.sysExit)) := by
  rintro ⟨free, hc, -, hcard⟩
  obtain ⟨-, hfix, h'⟩ := exit_lists h.sched h.current (by simp [hr])
  have hfree : free = st.running :: ls .free := by
    refine Chain.unique hc ?_
    have hlinks := h'.placed.links .free (by simp)
    rwa [put_same] at hlinks
  have hmem := h.running_live hr
  have hlive : (st.finish (st.run.withSched st.sched.sysExit)).live free =
      (st.live (ls .free)).erase i :=
    live_finish hr (fun j hj => by simp [hfree, hr, hj])
  -- the processes still live own two frames each at most
  have hle : ((st.finish (st.run.withSched st.sched.sysExit)).owned free).card ≤
      ((st.live (ls .free)).erase i).card * 2 := by
    rw [← hlive]
    exact Finset.card_biUnion_le_card_mul _ _ _ (fun j _ => Finset.card_le_two)
  have hbooks := h.books.card
  rw [h.books.two] at hbooks
  rw [Finset.card_erase_of_mem hmem] at hle
  have hused : (usedFrames st.bitmap).card = _ := hcard
  have := Finset.card_pos.mpr ⟨i, hmem⟩
  omega

/-- A tick does not find again what was lost. -/
theorem tick_loses (h : SchedInv st.sched st.running ls) (hlost : ¬ ResourcesKept m st) {d esp : Nat}
    (hst : lifeStep L st (.call (.tick d esp)) = some st') : ¬ ResourcesKept m st' := by
  obtain ⟨r, hrun, rfl⟩ := Option.map_eq_some_iff.mp hst
  obtain ⟨ls', h', hfree, hsame⟩ := ticked_books h hrun
  rwa [hsame.kept_iff h h' hfree]

/-- **A tick returns** if every directory it can load is one that has been created. -/
theorem tick_returns {k : Kernel} {running : Proc} (h : SchedInv k.sched running ls)
    (hM : MachInv L Identity k.mach spaces)
    (hdirs : ∀ x, x ∉ ls .free → (k.sched.pcb x).pageDirectory = 0 ∨
      ∃ d ∈ spaces, (k.sched.pcb x).pageDirectory = 4096 * d) (d esp : Nat) :
    ∃ r, schedulerTick k d esp = some r := by
  obtain ⟨s₁, curr, q, xs, hs₁, hsel, hcur, hfix, -, -, h'⟩ := tick_choice h d
  rcases hse : (s₁.preempt d).selectNext with ⟨c, s₃⟩
  simp only [hse] at hsel hcur hfix h'
  subst hsel
  simp only [schedulerTick, hs₁, Option.bind_eq_bind, Option.bind_some, hse]
  split
  · exact ⟨_, rfl⟩
  · cases k.sched.current with
    | some p => exact ⟨_, rfl⟩
    | none =>
      -- the stack pointer is saved through NULL, under the directory just loaded
      have hc : c ∉ ls .free := by
        rw [← chosen_free k.sched ls q c xs]
        exact h'.not_mem hcur (by simp)
      have hload : ∃ m', MachInv L Identity m' spaces ∧ m' =
          if (s₃.pcb c).pageDirectory ≠ 0 then vmmSwitchDirectory k.mach (s₃.pcb c).pageDirectory
          else k.mach := by
        rw [hfix.field Pcb.pageDirectory (fun _ => rfl)]
        rcases hdirs c hc with hz | ⟨d', hd', heq⟩
        · exact ⟨_, hM, by rw [hz, if_neg (not_not.mpr rfl)]⟩
        · refine ⟨_, hM.switch (List.mem_cons_of_mem _ hd'), ?_⟩
          rw [heq, if_pos (hM.vm.space d' hd').1.addr_ne_zero]
      obtain ⟨m', hM', hm'⟩ := hload
      obtain ⟨m'', hst, -⟩ := (store32_low identity_spec hM' (show 0 < 20480 by norm_num) 15 esp).total
        trivial
      have hst' : m'.store32 60 esp = some m'' := hst
      simp only [contextSwitch, ← hm', hst', Option.map_some, Option.bind_some]
      exact ⟨_, rfl⟩

/-- A tick takes the CPU away from a process that has ended. -/
theorem tick_away (h : LifeInv st ls) (hend : st.ended st.running = true) {d esp : Nat}
    (hst : lifeStep L st (.call (.tick d esp)) = some st') : st'.halted = false := by
  obtain ⟨⟨sw, k'⟩, hrun, rfl⟩ := Option.map_eq_some_iff.mp hst
  obtain ⟨curr, -, -, -, -, -, hcur, hsw, -⟩ := tick_kernel h.sched hrun
  cases sw with
  | some w => simp [LifeRun.ticked]
  | none =>
    have hcurr : curr = st.running := h.sched.running_of_current (hsw.mp rfl)
    have hne := (life_ticked h hrun).2 st.running hend
    exact absurd (hcurr ▸ hcur) hne

theorem ResInv.life (h : ResInv L m st ls spaces) : LifeInv st ls :=
  ⟨h.sched, fun p hp => absurd hp (by simp [h.ended p]), fun p hp => absurd hp (by simp [h.ended p])⟩

theorem ResInv.not_waiting (h : ResInv L m st ls spaces) : ¬ st.sched.Waiting st.running := by
  rw [h.sched.waiting_iff]
  rintro (⟨q, hx⟩ | hx)
  · exact h.sched.not_mem h.current (by simp) hx
  · exact h.sched.not_mem h.current (by simp) hx

theorem ResInv.directory (h : ResInv L m st ls spaces) {x : Proc} (hx : x ∉ ls .free) :
    (st.sched.pcb x).pageDirectory = 0 ∨
      ∃ d ∈ spaces, (st.sched.pcb x).pageDirectory = 4096 * d := by
  cases x with
  | idle => exact Or.inl h.idle
  | pool j => exact Or.inr (h.dirs j hx)

/-- The tick after an end. -/
theorem finish_tick_loses (h : ResInv L m st ls spaces) {r : SchedRun}
    (hlife : LifeInv (st.finish r) ls') (hrun : r.running = st.running)
    (hmach : r.kernel.mach = st.run.kernel.mach) (hfix : Fixed st.sched r.sched)
    (hfree : ∀ x, x ∉ ls' .free → x ∉ ls .free) (hlost : ¬ ResourcesKept m (st.finish r))
    (d esp : Nat) : ∃ st₂, lifeStep L (st.finish r) (.call (.tick d esp)) = some st₂ ∧
      st₂.halted = false ∧ ¬ ResourcesKept m st₂ := by
  have hM : MachInv L Identity (st.finish r).run.kernel.mach spaces := by
    simp only [LifeRun.finish, hmach]
    exact h.mach
  have hdirs : ∀ x, x ∉ ls' .free → ((st.finish r).sched.pcb x).pageDirectory = 0 ∨
      ∃ d ∈ spaces, ((st.finish r).sched.pcb x).pageDirectory = 4096 * d := by
    intro x hx
    simp only [LifeRun.finish, LifeRun.sched, hfix.field Pcb.pageDirectory (fun _ => rfl)]
    exact h.directory (hfree x hx)
  obtain ⟨⟨sw, k'⟩, htick⟩ := tick_returns hlife.sched hM hdirs d esp
  have hstep : lifeStep L (st.finish r) (.call (.tick d esp)) =
      some ((st.finish r).ticked esp (sw, k')) := by
    rw [lifeStep, htick, Option.map_some]
  refine ⟨_, hstep, tick_away hlife ?_ hstep, tick_loses hlife.sched hlost hstep⟩
  simp [LifeRun.finish, LifeRun.running, hrun]

/-- **Every process that ends loses something**, also once it has been switched away from. -/
theorem end_loses (h : ResInv L m st ls spaces) (halive : st.halted = false) {i : Fin 64}
    (hr : st.running = .pool i) {op : LifeOp} (hop : op = .exit ∨ op = .call .entryReturn)
    (d esp : Nat) : ∃ st₁ st₂, lifeStep L st op = some st₁ ∧
      lifeStep L st₁ (.call (.tick d esp)) = some st₂ ∧ st₂.halted = false ∧ ¬ ResourcesKept m st₂ := by
  rcases hop with rfl | rfl
  · have hne : st.running ≠ .idle := by simp [hr]
    obtain ⟨ls', hlife⟩ := life_exit h.life hne h.not_waiting
    obtain ⟨-, hfix, h'⟩ := exit_lists h.sched h.current hne
    have hfree : ls' .free = st.running :: ls .free := by
      have hlinks := h'.placed.links .free (by simp)
      rw [put_same] at hlinks
      exact Chain.unique (hlife.sched.placed.links .free (by simp)) hlinks
    obtain ⟨st₂, hst₂⟩ := finish_tick_loses h hlife rfl rfl hfix (fun x hx hx' => hx (by
      rw [hfree]
      exact List.mem_cons_of_mem _ hx')) (exit_loses h hr) d esp
    exact ⟨_, st₂, by simp [lifeStep, LifeRun.alive, halive], hst₂⟩
  · have hlife := life_entryReturn h.life hr h.not_waiting
    have hfix : Fixed st.sched (st.sched.entryReturned (.pool i)) :=
      fixed_modify (·.withState .terminated) (fun _ => rfl)
    obtain ⟨st₂, hst₂⟩ := finish_tick_loses h hlife rfl rfl hfix (fun _ hx => hx)
      (return_loses h hr) d esp
    exact ⟨_, st₂, by simp [lifeStep, LifeRun.alive, halive, schedStep, hr], hst₂⟩

end JarvOs.Process
