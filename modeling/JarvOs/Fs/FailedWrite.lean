/-
# Writes that run out of memory (`ramfs_write` in `kernel/fs/vfs.c`)

`ramfs_write` asks for memory twice: for the data of a file that was never written to, and for a larger
buffer.  A failure of the first request leaves the node as it was.  A failure of the second one frees
the file data and sets `node->data` to NULL, which undoes the first request if this call made it, and
THROWS THE FILE AWAY if the file was there before.

`failed_write_harmless_iff` says that this is the only harm a failed allocation does, and that it does
it to every file that has a byte in it.
-/
import JarvOs.Fs.Vfs

namespace JarvOs.Fs

open JarvOs.Lib

/-! ## 1. Failed requests, and what later calls see -/

/-- The size a file has for its readers. -/
def VfsNode.size (n : VfsNode) : Nat := (n.data.map RamfsFileData.size).getD 0

/-- The capacity `ramfs_write` asks `krealloc` for, if it needs more room and its loop ends. -/
def requested (n : VfsNode) (buf : List UInt8) (offset : Nat) : Option Nat :=
  let data := n.data.getD ⟨[], 0, 0⟩
  let newSize := add32 offset buf.length
  if newSize > data.capacity then
    doubleUntil newSize 33 (if data.capacity = 0 then 256 else data.capacity)
  else none

/-- `krealloc` is called, and returns NULL. -/
def GrowthRefused (answers : Answers) (n : VfsNode) (buf : List UInt8) (offset : Nat) : Prop :=
  ¬ (n.data = none ∧ answers.kmalloc = false) ∧ (requested n buf offset).isSome ∧
    answers.krealloc = none

/-- `kmalloc` or `krealloc` returns NULL during a write to the file. -/
def AllocFails (answers : Answers) (n : VfsNode) (buf : List UInt8) (offset : Nat) : Prop :=
  n.nodeType = .file ∧
    ((n.data = none ∧ answers.kmalloc = false) ∨ GrowthRefused answers n buf offset)

/-- Two states of a node that no read tells apart. -/
structure SeenAlike (n n' : VfsNode) : Prop where
  size : n'.size = n.size
  read : ∀ count offset, ramfsRead n' count offset = ramfsRead n count offset

/-- The nodes look as before, and the descriptors are as before. -/
structure Unchanged (s s' : Vfs) : Prop where
  nodes : ∀ b, Option.Rel SeenAlike (s.nodes b) (s'.nodes b)
  fds : s'.fdTable = s.fdTable

variable {answers : Answers} {n : VfsNode} {buf : List UInt8} {offset : Nat} {s : Vfs} {a : NodeId}

theorem SeenAlike.refl (n : VfsNode) : SeenAlike n n := ⟨rfl, fun _ _ => rfl⟩

/-- A file without a byte looks like one that was never written to. -/
theorem seenAlike_dropped (h : n.size = 0) : SeenAlike n { n with data := none } := by
  refine ⟨h.symm, ?_⟩
  intro count offset
  unfold ramfsRead
  split
  · rfl
  · cases hd : n.data with
    | none => rfl
    | some d =>
      have h0 : d.size = 0 := by simpa [VfsNode.size, hd] using h
      simp [h0]

/-! ## 2. One write -/

/-- **What a failed request does**: the data of the file is gone, or nothing has happened. -/
theorem ramfsWrite_failed (h : AllocFails answers n buf offset) :
    ramfsWrite answers n buf offset = some (kernelFailure,
      if n.data = none ∧ answers.kmalloc = false then n else { n with data := none }) := by
  obtain ⟨hfile, hfail⟩ := h
  unfold ramfsWrite
  rw [if_neg (not_not.mpr hfile)]
  rcases hfail with hk | ⟨hk, hreq, hr⟩
  · rw [if_pos hk, if_pos hk]
  · rw [if_neg hk, if_neg hk]
    obtain ⟨c, hc⟩ := Option.isSome_iff_exists.mp hreq
    unfold requested at hc
    simp only at hc ⊢
    split at hc
    · rename_i hgrow
      rw [if_pos hgrow, hc, Option.bind_eq_bind, Option.bind_some, hr]
    · cases hc

/-- One node replaced. -/
def Vfs.setNode (s : Vfs) (a : NodeId) (n : VfsNode) : Vfs :=
  { s with nodes := Function.update s.nodes a (some n) }

/-- A write through an open descriptor that fails. -/
theorem vfsWrite_failed {fd : Int} {i : Fin maxOpenFiles} (hfd : s.opened fd = some (i, a))
    (hn : s.nodes a = some n) (h : AllocFails answers n buf (s.fdTable i).offset) :
    vfsWrite answers s fd buf = some (kernelFailure, s.setNode a
      (if n.data = none ∧ answers.kmalloc = false then n else { n with data := none })) := by
  unfold vfsWrite
  simp only [hfd, hn, ramfsWrite_failed h, Option.bind_eq_bind, Option.bind_some]
  rfl

/-- One node of the tree replaced by another. -/
theorem unchanged_update_iff (hn : s.nodes a = some n) (n' : VfsNode) :
    Unchanged s (s.setNode a n') ↔ SeenAlike n n' := by
  constructor
  · intro h
    have ha := h.nodes a
    simp only [hn, Vfs.setNode, Function.update_self] at ha
    cases ha with
    | some hnn => exact hnn
  · intro h
    refine ⟨fun b => ?_, rfl⟩
    rcases eq_or_ne b a with rfl | hb
    · simp only [hn, Vfs.setNode, Function.update_self]
      exact .some h
    · simp only [Vfs.setNode, Function.update_of_ne hb]
      cases s.nodes b with
      | none => exact .none
      | some m => exact .some (.refl m)

/-! ## 3. Every write -/

/-- The write through `fd` is one during which an allocation fails. -/
def WriteFails (answers : Answers) (s : Vfs) (fd : Int) (buf : List UInt8) : Prop :=
  ∃ i a n, s.opened fd = some (i, a) ∧ s.nodes a = some n ∧
    AllocFails answers n buf (s.fdTable i).offset

/-- The buffer of a file with something in it is to grow, and cannot. -/
def GrowthOfFileRefused (answers : Answers) (s : Vfs) (fd : Int) (buf : List UInt8) : Prop :=
  ∃ i a n, s.opened fd = some (i, a) ∧ s.nodes a = some n ∧ n.nodeType = .file ∧ 0 < n.size ∧
    GrowthRefused answers n buf (s.fdTable i).offset

/-- **When a failed write leaves the files intact.**  A `vfs_write` during which an allocation fails
answers -1; it leaves every file as its readers see it and every descriptor as it was, if and only if
the failed request is not one for a larger buffer of a file that has something in it. -/
theorem failed_write_harmless_iff (answers : Answers) (s : Vfs) (fd : Int) (buf : List UInt8) :
    (WriteFails answers s fd buf →
      ∃ s', vfsWrite answers s fd buf = some (kernelFailure, s') ∧ Unchanged s s') ↔
    ¬ GrowthOfFileRefused answers s fd buf := by
  constructor
  · rintro h ⟨i, a, n, hfd, hn, hfile, hsize, hgrow⟩
    have hfail : AllocFails answers n buf (s.fdTable i).offset := ⟨hfile, Or.inr hgrow⟩
    obtain ⟨s', hwrite, hsame⟩ := h ⟨i, a, n, hfd, hn, hfail⟩
    rw [vfsWrite_failed hfd hn hfail, if_neg hgrow.1] at hwrite
    obtain rfl := (Prod.mk.inj (Option.some.inj hwrite)).2
    have hlike := (unchanged_update_iff hn _).mp hsame
    exact absurd hlike.size.symm (by simpa [VfsNode.size] using hsize.ne')
  · rintro hok ⟨i, a, n, hfd, hn, hfail⟩
    refine ⟨_, vfsWrite_failed hfd hn hfail, (unchanged_update_iff hn _).mpr ?_⟩
    split
    · exact .refl n
    · rename_i hk
      refine seenAlike_dropped ?_
      rcases Nat.eq_zero_or_pos n.size with h0 | hpos
      · exact h0
      · obtain ⟨hfile, hkmalloc | hgrow⟩ := hfail
        · exact absurd hkmalloc hk
        · exact absurd ⟨i, a, n, hfd, hn, hfile, hpos, hgrow⟩ hok

/-- A tree of one file that holds the byte `A`, open twice, at its start and at its end. -/
def oneByteFile : Vfs where
  nodes b := if b = 8 then some
    { nodeType := .file, name := [0x66], data := some ⟨[0x41], 1, 1⟩, parent := none, childHead := none,
      childTail := none, nextSibling := none, prevSibling := none } else none
  root := none
  cwd := none
  fdTable i := if i = 0 then ⟨some 8, 0, 0⟩ else if i = 1 then ⟨some 8, 0, 1⟩ else closedFd

/-- **A failed write empties the file.**  One byte is to be appended and `krealloc` has no memory: the
write answers -1, and a reader that would have got `A` gets nothing. -/
theorem failed_write_empties_file :
    (vfsRead oneByteFile 0 1).map (fun r => (r.1, r.2.1)) = some (1, [0x41]) ∧
    ∃ s', vfsWrite ⟨true, none⟩ oneByteFile 1 [0x42] = some (-1, s') ∧
      (vfsRead s' 0 1).map (fun r => (r.1, r.2.1)) = some (0, []) := by
  refine ⟨by decide, _, rfl, by decide⟩

end JarvOs.Fs
