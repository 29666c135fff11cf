/-
# Paths (`resolve_path` and its callers in `kernel/fs/vfs.c`)

`resolve_path` copies the path, cuts the copy up with `strtok_r` and walks the tree one token at a
time: `.` stays, `..` goes to the parent if there is one, and anything else must be the name of a
child.  The copy is made by `kmalloc`, whose answer is an input here (0 is NULL), and is private to
the call, so it is a buffer of its own; what the call does to the HEAP is the list of allocator calls
it makes, in order.  That list is the subject of `Fs.PathHeap`, the node of `Fs.PathLaws`.

The tree is whatever the node table holds.  Following a pointer to no node is a fault (`none`), and so
is a list of siblings that does not end: after as many steps as there are addresses a node comes up
for the second time.

`resolvePath_eq` replaces the tokenizer and its buffer by a walk over the fields of the path.
-/
import JarvOs.Lib.Tokens
import JarvOs.Memory.HeapRuns
import JarvOs.Fs.Vfs

namespace JarvOs.Fs

open JarvOs.Lib JarvOs.Memory

/-! ## 1. The functions -/

/-- A string of the caller: its bytes, up to the terminator. -/
structure CString where
  bytes : List UInt8
  noNul : 0 ∉ bytes
deriving DecidableEq

/-- `'/'` -/
abbrev slash : UInt8 := 0x2F

/-- `"."` -/
def dot : List UInt8 := [0x2E]

/-- `".."` -/
def dotdot : List UInt8 := [0x2E, 0x2E]

/-- `strcmp`; behind the bytes of a list there is a zero. -/
def strcmp : List UInt8 → List UInt8 → Int
  | [], [] => 0
  | [], b :: _ => 0 - b.toNat
  | a :: _, [] => a.toNat - 0
  | a :: s, b :: t => if a ≠ 0 ∧ a = b then strcmp s t else a.toNat - b.toNat

/-- The loop of `vfs_dir_find_child`. -/
def findFrom (s : Vfs) (name : List UInt8) : Nat → Option NodeId → Option (Option NodeId)
  | 0, _ => none
  | _ + 1, none => some none
  | fuel + 1, some child => do
    let n ← s.nodes child
    if strcmp n.name name = 0 then some (some child) else findFrom s name fuel n.nextSibling

/-- `vfs_dir_find_child`. -/
def vfsDirFindChild (s : Vfs) (dir : NodeId) (name : List UInt8) : Option (Option NodeId) := do
  let d ← s.nodes dir
  if d.nodeType ≠ .directory then some none else findFrom s name (2 ^ 32 + 1) d.childHead

/-- What the loop of `resolve_path` does with a token: there is no such child, or it goes on. -/
inductive Visit
  | missing
  | next (current : Option NodeId)

/-- The body of the loop of `resolve_path`. -/
def visit (s : Vfs) (current : Option NodeId) (token : List UInt8) : Option Visit :=
  if strcmp token dot = 0 then some (.next current)
  else if strcmp token dotdot = 0 then do
    let c ← current
    let n ← s.nodes c
    match n.parent with
    | some p => some (.next (some p))
    | none => some (.next current)
  else do
    let c ← current
    match ← vfsDirFindChild s c token with
    | none => some .missing
    | some child => some (.next (some child))

/-- The loop of `resolve_path`: `saveptr` is at `pos` of the copy.  Every round moves it forward. -/
def resolveLoop (s : Vfs) : Nat → List UInt8 → Nat → Option NodeId → Option (Option NodeId)
  | 0, _, _, _ => none
  | fuel + 1, buf, pos, current =>
    match strtokR slash buf pos with
    | (none, _, _) => some current
    | (some token, buf, pos) => do
      match ← visit s current (cstrAt buf token) with
      | .missing => some none
      | .next current => resolveLoop s fuel buf pos current

/-- `kstrdup`, when `kmalloc` answers `copy`: the call it makes, and the buffer unless it is NULL. -/
def kstrdup (s : CString) (copy : Nat) : HeapOp × Option (List UInt8) :=
  (.kmalloc (s.bytes.length + 1), if copy = 0 then none else some (s.bytes ++ [0]))

/-- `normalize_path` -/
def normalizePath (path : CString) (copy : Nat) : HeapOp × Option (List UInt8) := kstrdup path copy

/-- `resolve_path`: the node (`none` is NULL) and the allocator calls.  `norm++` stands on the absolute
branch, in front of the loop and of both calls of `kfree` behind it. -/
def resolvePath (s : Vfs) (path : Option CString) (copy : Nat) :
    Option (Option NodeId × List HeapOp) :=
  match path with
  | none => some (none, [])
  | some path =>
    match normalizePath path copy with
    | (dup, none) => some (none, [dup])
    | (dup, some buf) =>
      if buf.head? = some slash then
        (resolveLoop s (buf.length + 1) buf 1 s.root).map
          (fun node => (node, [dup, .kfree (add32 copy 1)]))
      else
        match s.cwd with
        | none => some (none, [dup, .kfree copy])
        | some cwd =>
          (resolveLoop s (buf.length + 1) buf 0 (some cwd)).map
            (fun node => (node, [dup, .kfree copy]))

/-- `vfs_mount`; the other arguments are not read. -/
def vfsMount (s : Vfs) (target : Option CString) (copy : Nat) : Option (Int × List HeapOp) := do
  let (node, calls) ← resolvePath s target copy
  match node with
  | none => some (kernelFailure, calls)
  | some a =>
    let n ← s.nodes a
    if n.nodeType ≠ .directory then some (kernelFailure, calls) else some (kernelSuccess, calls)

/-- `vfs_lookup` -/
def vfsLookup (s : Vfs) (path : Option CString) (copy : Nat) :
    Option (Option NodeId × List HeapOp) := resolvePath s path copy

/-- `vfs_open`, from the path on. -/
def vfsOpenPath (s : Vfs) (path : Option CString) (flags copy : Nat) :
    Option (Int × Vfs × List HeapOp) := do
  let (node, calls) ← resolvePath s path copy
  let (fd, s) := vfsOpen s node flags
  some (fd, s, calls)

/-- `struct stat` -/
structure Stat where
  stMode : Nat
  stSize : Nat
  stBlocks : Nat
deriving DecidableEq, Repr

/-- `ramfs_stat`: the result and what `*st` holds afterwards.  For a file without data it reads the
`size` behind the NULL pointer, `nullSize`. -/
def ramfsStat (nullSize : Nat) (node : VfsNode) (st : Option Stat) : Int × Option Stat :=
  match st with
  | none => (kernelFailure, none)
  | some _ =>
    match node.nodeType with
    | .directory => (kernelSuccess, some ⟨0x4000 ||| 0o755, 0, 0⟩)
    | .file =>
      let size := (node.data.map RamfsFileData.size).getD nullSize
      (kernelSuccess, some ⟨0x8000 ||| 0o644, size, add32 size 511 / 512⟩)
    | .device => (kernelSuccess, some ⟨0x6000 ||| 0o644, 0, 0⟩)
    | .symlink => (kernelSuccess, some ⟨0xA000 ||| 0o755, 0, 0⟩)

/-- `vfs_stat` -/
def vfsStat (nullSize : Nat) (s : Vfs) (path : Option CString) (st : Option Stat) (copy : Nat) :
    Option (Int × Option Stat × List HeapOp) := do
  let (node, calls) ← resolvePath s path copy
  match node with
  | none => some (kernelFailure, st, calls)
  | some a =>
    let n ← s.nodes a
    let (r, st) := ramfsStat nullSize n st
    some (r, st, calls)

/-! ## 2. The walk -/

/-- The loop without the tokenizer. -/
def walk (s : Vfs) : List (List UInt8) → Option NodeId → Option (Option NodeId)
  | [], current => some current
  | t :: ts, current => do
    match ← visit s current t with
    | .missing => some none
    | .next current => walk s ts current

/-- **The tokenizer and its buffer** are a way to go through the fields of the string that is left. -/
theorem resolveLoop_eq_walk (s : Vfs) {fuel : Nat} : ∀ {buf : List UInt8} {pos : Nat}
    (current : Option NodeId), (cstrAt buf pos).length < fuel →
    resolveLoop s fuel buf pos current = walk s (fields slash (cstrAt buf pos)) current := by
  induction fuel with
  | zero =>
    intro buf pos current h
    exact absurd h (Nat.not_lt_zero _)
  | succ fuel ih =>
    intro buf pos current h
    rcases strtokR_spec slash buf pos with ⟨hnil, hnone⟩ | ⟨token, buf', pos', hsome, hcons, hlt⟩
    · rcases ht : strtokR slash buf pos with ⟨token, buf', pos'⟩
      rw [ht] at hnone
      obtain rfl : token = none := hnone
      simp [resolveLoop, ht, hnil, walk]
    · rw [hcons]
      simp only [resolveLoop, hsome, walk]
      cases hv : visit s current (cstrAt buf' token) with
      | none => rfl
      | some v =>
        cases v with
        | missing => rfl
        | next current' => exact ih current' (Nat.lt_of_lt_of_le hlt (Nat.le_of_lt_succ h))

/-- The path starts with a slash. -/
def CString.Absolute (path : CString) : Prop := path.bytes.head? = some slash

instance (path : CString) : Decidable path.Absolute := by unfold CString.Absolute; infer_instance

/-- The pointer `resolve_path` ends up with, and frees. -/
def normOf (path : CString) (copy : Nat) : Nat := if path.Absolute then add32 copy 1 else copy

/-- **`resolve_path` with a copy**: a walk over the fields of the path from the root or the working
directory, one allocation, and `norm` is freed at every exit. -/
theorem resolvePath_eq (s : Vfs) (path : CString) {copy : Nat} (hcopy : copy ≠ 0) :
    resolvePath s (some path) copy =
      (if path.Absolute then walk s (fields slash path.bytes) s.root
        else if s.cwd = none then some none else walk s (fields slash path.bytes) s.cwd).map
        (fun node => (node, [.kmalloc (path.bytes.length + 1), .kfree (normOf path copy)])) := by
  have hbuf : cstrAt (path.bytes ++ [0]) 0 = path.bytes := cstrAt_terminated path.noNul []
  have hhead : (path.bytes ++ [0]).head? = some slash ↔ path.Absolute := by
    unfold CString.Absolute
    cases path.bytes <;> simp [slash]
  have hlen : (path.bytes ++ [0]).length + 1 = path.bytes.length + 2 := by simp
  simp only [resolvePath, normalizePath, kstrdup, if_neg hcopy, hhead, hlen]
  by_cases habs : path.Absolute
  · -- the tokenizer starts behind the slash, and a slash in front adds no field
    obtain ⟨rest, hrest⟩ : ∃ rest, path.bytes = slash :: rest := List.head?_eq_some_iff.mp habs
    have htail : cstrAt (path.bytes ++ [0]) 1 = rest := by
      rw [← Nat.zero_add 1, cstrAt_add (by rw [hbuf, hrest]; simp), hbuf, hrest]
      rfl
    have hfuel : (cstrAt (path.bytes ++ [0]) 1).length < path.bytes.length + 2 := by
      rw [htail, hrest, List.length_cons]
      omega
    rw [if_pos habs, if_pos habs, resolveLoop_eq_walk s _ hfuel, htail]
    simp only [normOf, if_pos habs]
    rw [hrest, fields_sep_cons]
  · rw [if_neg habs, if_neg habs]
    simp only [normOf, if_neg habs]
    cases hcwd : s.cwd with
    | none => rfl
    | some cwd =>
      simp only [reduceCtorEq, if_false]
      rw [resolveLoop_eq_walk s _ (by rw [hbuf]; omega), hbuf]

end JarvOs.Fs
