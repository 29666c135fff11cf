/-
# The copy of a path is not always given back

Every exit of `resolve_path` behind the copy frees `norm`.  On the absolute branch `norm++` has moved
that pointer past the slash, so what is freed is one byte INSIDE the copy: not a pointer `kmalloc`
returned, and the copy itself stays allocated.

A caller's view of the heap is the set of pointers it holds (`liveAfter`, as in `Memory.HeapRuns`).
`ReturnsMemory` says of a list of allocator calls that every `kfree` is given a pointer held at that
moment and that the set at the end is the one at the beginning.

* `path_memory_iff`: for all four functions that take a path, and whatever the tree, exactly when the
  path is not absolute or there was no memory for the copy;
* `kmalloc_not_live` and `path_heap_run` tie this to the kernel heap: what `kmalloc` returns was not
  held before, and in the good case the calls are a legal history of the heap.
-/
import JarvOs.Fs.Path
import JarvOs.Fs.Store

namespace JarvOs.Fs

open JarvOs.Lib JarvOs.Memory

/-! ## 1. The callers -/

/-- The functions that resolve a path. -/
inductive PathCall
  | lookup
  | openPath (flags : Nat)
  | stat (nullSize : Nat) (st : Option Stat)
  | mount

/-- The allocator calls one of them makes. -/
def PathCall.heapCalls (s : Vfs) (path : Option CString) (copy : Nat) : PathCall → Option (List HeapOp)
  | .lookup => (vfsLookup s path copy).map (fun r => r.2)
  | .openPath flags => (vfsOpenPath s path flags copy).map (fun r => r.2.2)
  | .stat nullSize st => (vfsStat nullSize s path st copy).map (fun r => r.2.2)
  | .mount => (vfsMount s path copy).map (fun r => r.2)

/-- They are those of `resolve_path`. -/
theorem PathCall.heapCalls_resolve {s : Vfs} {path : Option CString} {copy : Nat} {c : PathCall}
    {calls : List HeapOp} (h : c.heapCalls s path copy = some calls) :
    ∃ node, resolvePath s path copy = some (node, calls) := by
  cases c with
  | lookup =>
    obtain ⟨⟨node, cs⟩, hres, rfl⟩ := Option.map_eq_some_iff.mp h
    exact ⟨node, hres⟩
  | openPath flags =>
    obtain ⟨r, hopen, rfl⟩ := Option.map_eq_some_iff.mp h
    obtain ⟨⟨node, cs⟩, hres, hopen⟩ := Option.bind_eq_some_iff.mp hopen
    obtain rfl := Option.some.inj hopen
    exact ⟨node, hres⟩
  | stat nullSize st =>
    obtain ⟨r, hstat, rfl⟩ := Option.map_eq_some_iff.mp h
    obtain ⟨⟨node, cs⟩, hres, hstat⟩ := Option.bind_eq_some_iff.mp hstat
    refine ⟨node, ?_⟩
    cases node with
    | none =>
      obtain rfl := Option.some.inj hstat
      exact hres
    | some a =>
      obtain ⟨n, -, hstat⟩ := Option.bind_eq_some_iff.mp hstat
      obtain rfl := Option.some.inj hstat
      exact hres
  | mount =>
    obtain ⟨r, hmount, rfl⟩ := Option.map_eq_some_iff.mp h
    obtain ⟨⟨node, cs⟩, hres, hmount⟩ := Option.bind_eq_some_iff.mp hmount
    refine ⟨node, ?_⟩
    cases node with
    | none =>
      obtain rfl := Option.some.inj hmount
      exact hres
    | some a =>
      obtain ⟨n, -, hmount⟩ := Option.bind_eq_some_iff.mp hmount
      split at hmount <;> obtain rfl := Option.some.inj hmount <;> exact hres

/-! ## 2. What is held -/

/-- The pointers held after a call, when `kmalloc` answers `copy`. -/
def liveStep (copy : Nat) (live : Finset Nat) (op : HeapOp) : Option (Finset Nat) :=
  some (liveAfter live op (match op with | .kmalloc _ => copy | _ => 0))

/-- `kfree` is given a pointer that is held. -/
def FreesHeld (live : Finset Nat) : HeapOp → Prop
  | .kfree p => p ∈ live
  | _ => True

/-- **The calls give back what they take**, and free nothing else. -/
def ReturnsMemory (copy : Nat) (live : Finset Nat) (calls : List HeapOp) : Prop :=
  Along (liveStep copy) FreesHeld live calls ∧ run (liveStep copy) live calls = some live

/-- The calls of `resolve_path`. -/
theorem resolvePath_calls {s : Vfs} {path : Option CString} {copy : Nat} {node : Option NodeId}
    {calls : List HeapOp} (h : resolvePath s path copy = some (node, calls)) :
    (path = none ∧ calls = []) ∨
      ∃ p, path = some p ∧
        (copy = 0 ∧ calls = [.kmalloc (p.bytes.length + 1)] ∨
          copy ≠ 0 ∧ calls = [.kmalloc (p.bytes.length + 1), .kfree (normOf p copy)]) := by
  cases path with
  | none =>
    cases h
    exact Or.inl ⟨rfl, rfl⟩
  | some p =>
    refine Or.inr ⟨p, rfl, ?_⟩
    by_cases hcopy : copy = 0
    · subst hcopy
      cases h
      exact Or.inl ⟨rfl, rfl⟩
    · rw [resolvePath_eq s p hcopy] at h
      obtain ⟨_, -, heq⟩ := Option.map_eq_some_iff.mp h
      exact Or.inr ⟨hcopy, (Prod.mk.inj heq).2.symm⟩

/-- One allocation, and one pointer freed. -/
theorem returnsMemory_pair {copy p n : Nat} {live : Finset Nat} (hcopy : copy ≠ 0)
    (hfresh : copy ∉ live) : ReturnsMemory copy live [.kmalloc n, .kfree p] ↔ p = copy := by
  simp only [ReturnsMemory, Along, FreesHeld, liveStep, liveAfter, if_neg hcopy, run,
    Option.bind_some, Option.some.injEq, forall_eq', true_and, and_true]
  constructor
  · rintro ⟨-, heq⟩
    by_contra hne
    refine hfresh (heq ▸ ?_)
    exact Finset.mem_erase.mpr ⟨Ne.symm hne, Finset.mem_insert_self copy live⟩
  · rintro rfl
    exact ⟨Finset.mem_insert_self _ _, Finset.erase_insert hfresh⟩

theorem normOf_eq_iff (p : CString) (copy : Nat) : normOf p copy = copy ↔ ¬ p.Absolute := by
  unfold normOf
  split
  · rename_i habs
    simp only [habs, not_true, iff_false]
    unfold add32
    omega
  · rename_i habs
    simp [habs]

/-- **Exactly when a path function gives its memory back**: a call that returns does so if and only if
the path is not absolute, or there was no memory for the copy. -/
theorem path_memory_iff (c : PathCall) (s : Vfs) (path : Option CString) {copy : Nat}
    {live : Finset Nat} (hfresh : copy ∉ live) {calls : List HeapOp}
    (hret : c.heapCalls s path copy = some calls) :
    ReturnsMemory copy live calls ↔ ∀ p, path = some p → p.Absolute → copy = 0 := by
  obtain ⟨node, hres⟩ := PathCall.heapCalls_resolve hret
  rcases resolvePath_calls hres with ⟨rfl, rfl⟩ | ⟨p, rfl, ⟨rfl, rfl⟩ | ⟨hcopy, rfl⟩⟩
  · simp [ReturnsMemory, Along]
  · simp [ReturnsMemory, Along, FreesHeld, liveStep, liveAfter, run]
  · rw [returnsMemory_pair hcopy hfresh, normOf_eq_iff]
    simp [hcopy]

/-- The tree after `vfs_init`. -/
def bootTree : Vfs := (vfsInit bssVfs (some 0xD0000010)).2

/-- A relative path with nothing to find: the copy is freed on the way out of the loop. -/
theorem path_memory_missing_name :
    PathCall.mount.heapCalls bootTree (some ⟨[0x61], by decide⟩) 0xD0000100 =
        some [.kmalloc 2, .kfree 0xD0000100] ∧
      ReturnsMemory 0xD0000100 {0xD0000010} [.kmalloc 2, .kfree 0xD0000100] := by
  have hret : PathCall.mount.heapCalls bootTree (some ⟨[0x61], by decide⟩) 0xD0000100 =
      some [.kmalloc 2, .kfree 0xD0000100] := by decide +kernel
  refine ⟨hret, (path_memory_iff .mount bootTree _ (by decide) hret).mpr ?_⟩
  rintro p hp habs
  cases hp
  exact absurd habs (by decide)

/-- **Looking up `/`** frees the byte behind the slash of the copy. -/
theorem absolute_path_frees_inside :
    vfsLookup bootTree (some ⟨[0x2F], by decide⟩) 0xD0000100 =
        some (some 0xD0000010, [.kmalloc 2, .kfree 0xD0000101]) ∧
      ¬ ReturnsMemory 0xD0000100 {0xD0000010} [.kmalloc 2, .kfree 0xD0000101] := by
  refine ⟨by decide +kernel, ?_⟩
  rw [returnsMemory_pair (by decide) (by decide)]
  decide

/-! ## 3. On the kernel heap -/

section Heap

variable {σ : Type} {E : HeapEnv σ} {Good : Nat → σ → Prop} {h : HeapRun σ}

/-- What `kmalloc` returns was not held before. -/
theorem kmalloc_not_live (L : HeapLaws E Good) (hI : RunInv E Good h) {n copy : Nat}
    {h' : HeapState σ} (hn : n ≤ 0xFFFFEFF0) (hk : E.kmalloc h.heap n = some (copy, h')) :
    copy ∉ h.live := by
  obtain ⟨k, bs, hI, hl⟩ := hI
  obtain ⟨r, h'', k', bs', e, -, -, hcase⟩ := kmalloc_spec L hI hn
  rw [hk] at e
  cases e
  rcases hcase with ⟨rfl, -⟩ | ⟨d, rfl, -, -, hall⟩
  · exact hl.zero_notMem
  · intro hmem
    obtain ⟨b, hb, heq⟩ := (hl _).mp hmem
    exact hall.fresh b hb (Nat.add_right_cancel heq).symm

/-- **The good case on the heap**: the calls of a path function are a history the heap survives, with
its invariant and the pointers held as before. -/
theorem path_heap_run (L : HeapLaws E Good) (hI : RunInv E Good h) {c : PathCall} {s : Vfs}
    {p : CString} (hlen : p.bytes.length + 1 ≤ 0xFFFFEFF0) {copy : Nat} {h' : HeapState σ}
    (hk : E.kmalloc h.heap (p.bytes.length + 1) = some (copy, h')) {calls : List HeapOp}
    (hret : c.heapCalls s (some p) copy = some calls) (hwhen : p.Absolute → copy = 0) :
    ∃ t, run (heapStep E) h calls = some t ∧ t.live = h.live ∧ RunInv E Good t := by
  have hfresh := kmalloc_not_live L hI hlen hk
  have hdup : heapStep E h (.kmalloc (p.bytes.length + 1)) =
      some ⟨h', if copy = 0 then h.live else insert copy h.live⟩ := by
    simp [heapStep, heapCall, hk, liveAfter]
  have hdupI := runInv_step L hI (show HeapLegal h (.kmalloc _) from hlen) hdup
  obtain ⟨node, hres⟩ := PathCall.heapCalls_resolve hret
  rcases resolvePath_calls hres with ⟨hnone, -⟩ | ⟨p', hp', ⟨rfl, rfl⟩ | ⟨hcopy, rfl⟩⟩
  · cases hnone
  · cases hp'
    exact ⟨_, run_cons_eq_some.mpr ⟨_, hdup, rfl⟩, by simp, hdupI⟩
  · cases hp'
    rw [(normOf_eq_iff p copy).mpr (fun habs => hcopy (hwhen habs))]
    rw [if_neg hcopy] at hdup hdupI
    have hlegal : HeapLegal ⟨h', insert copy h.live⟩ (.kfree copy) :=
      Or.inr (Finset.mem_insert_self copy h.live)
    obtain ⟨t, ht, htI⟩ := hdupI.heapStep L hlegal
    refine ⟨t, run_cons_eq_some.mpr ⟨_, hdup, run_cons_eq_some.mpr ⟨t, ht, rfl⟩⟩, ?_, htI⟩
    obtain ⟨r, -, rfl⟩ := Option.map_eq_some_iff.mp ht
    exact Finset.erase_insert hfresh

end Heap

end JarvOs.Fs
