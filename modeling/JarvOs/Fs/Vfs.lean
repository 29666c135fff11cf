/-
# The file system (`kernel/fs/vfs.c`)

Nodes, the ramfs operations and the descriptor table, as `vfs.c` has them.  A node is known by its
address, and NULL is `none`; using an address that holds no node is a fault (`none` of the result).

The allocator is outside of this module.  What it answers is an input of the functions that ask: an
address for a new node, and for `ramfs_write` whether `kmalloc` succeeded and, if `krealloc` did, what
the part of the new buffer that is not copied from the old one holds (`Answers`).

A file's data hangs off its node and is made at the first write.  `content` is the buffer of
`capacity` bytes, `size` says how many of them are the file.  Copying into or out of a buffer past its
end is a fault as well.

Section 5 says once what `vfs_dir_add_child` does to every node; what is built with it is in `Fs.Tree`,
and paths are in `Fs.Path`.  Nothing in the kernel calls `vfs_dir_remove_child`.  What the two make of
the children of a directory is the subject of `Fs.Children`.
-/
import JarvOs.Lib.Word
import JarvOs.Lib.Buffer

namespace JarvOs.Fs

open JarvOs.Lib

/-! ## 1. Nodes and descriptors -/

/-- `vfs_node_type_t`. -/
inductive VfsNodeType
  | file | directory | device | symlink
deriving DecidableEq, Repr

/-- The address of a node. -/
abbrev NodeId := Nat

/-- `ramfs_file_data_t`.  The buffer NULL is the empty one. -/
structure RamfsFileData where
  content : List UInt8
  size : Nat
  capacity : Nat
deriving DecidableEq, Repr

/-- `vfs_node_t`.  All nodes have the operations of ramfs. -/
structure VfsNode where
  nodeType : VfsNodeType
  name : List UInt8
  data : Option RamfsFileData
  parent : Option NodeId
  childHead : Option NodeId
  childTail : Option NodeId
  nextSibling : Option NodeId
  prevSibling : Option NodeId
deriving DecidableEq, Repr

/-- `fd_t`; the offset is a 32-bit word. -/
structure Fd where
  node : Option NodeId
  flags : Nat
  offset : Nat
deriving DecidableEq, Repr

/-- `MAX_OPEN_FILES`. -/
abbrev maxOpenFiles : Nat := 64

/-- The data of `vfs.c`. -/
structure Vfs where
  nodes : NodeId → Option VfsNode
  root : Option NodeId
  cwd : Option NodeId
  fdTable : Fin maxOpenFiles → Fd

abbrev kernelSuccess : Int := 0

abbrev kernelFailure : Int := -1

/-- `O_CREAT`. -/
abbrev oCreat : Nat := 0x0040

namespace Vfs

/-- A write through the pointer `a`. -/
def modifyNode (s : Vfs) (a : NodeId) (f : VfsNode → VfsNode) : Option Vfs :=
  (s.nodes a).map (fun n => { s with nodes := Function.update s.nodes a (some (f n)) })

def setFd (s : Vfs) (i : Fin maxOpenFiles) (f : Fd) : Vfs :=
  { s with fdTable := Function.update s.fdTable i f }

theorem fd_lt {fd : Int} (h : 0 ≤ fd ∧ fd.toNat < maxOpenFiles) : fd.toNat < maxOpenFiles := h.2

/-- The entry `fd` stands for: `fd < 0 || fd >= MAX_OPEN_FILES || fd_table[fd].node == NULL` is
`none`. -/
def opened (s : Vfs) (fd : Int) : Option (Fin maxOpenFiles × NodeId) :=
  if h : 0 ≤ fd ∧ fd.toNat < maxOpenFiles then
    (s.fdTable ⟨fd.toNat, fd_lt h⟩).node.map (fun a => (⟨fd.toNat, fd_lt h⟩, a))
  else none

end Vfs

/-! ## 2. The tree -/

/-- `vfs_create_node`, when `kmalloc` answers `addr`. -/
def vfsCreateNode (s : Vfs) (addr : Option NodeId) (name : List UInt8) (nodeType : VfsNodeType)
    (parent : Option NodeId) : Option NodeId × Vfs :=
  match addr with
  | none => (none, s)
  | some a => (some a, { s with nodes := Function.update s.nodes a (some {
      nodeType := nodeType
      name := name.take 63
      data := none
      parent := parent
      childHead := none
      childTail := none
      nextSibling := none
      prevSibling := none }) })

/-- `vfs_dir_add_child`. -/
def vfsDirAddChild (s : Vfs) (dir child : NodeId) : Option (Int × Vfs) := do
  let d ← s.nodes dir
  if d.nodeType ≠ .directory then some (kernelFailure, s)
  else
    let s ← s.modifyNode child (fun n => { n with parent := some dir })
    match d.childHead with
    | none =>
      let s ← s.modifyNode dir (fun n => { n with childHead := some child, childTail := some child })
      let s ← s.modifyNode child (fun n => { n with nextSibling := none, prevSibling := none })
      some (kernelSuccess, s)
    | some _ =>
      let tail ← d.childTail
      let s ← s.modifyNode tail (fun n => { n with nextSibling := some child })
      let s ← s.modifyNode child (fun n => { n with prevSibling := some tail, nextSibling := none })
      let s ← s.modifyNode dir (fun n => { n with childTail := some child })
      some (kernelSuccess, s)

/-- The first `if` of `vfs_dir_remove_child`, where `child` points to `c`. -/
def bypassNext (s : Vfs) (dir : NodeId) (c : VfsNode) : Option Vfs :=
  match c.prevSibling with
  | some before => s.modifyNode before (fun n => { n with nextSibling := c.nextSibling })
  | none => s.modifyNode dir (fun n => { n with childHead := c.nextSibling })

/-- The second. -/
def bypassPrev (s : Vfs) (dir : NodeId) (c : VfsNode) : Option Vfs :=
  match c.nextSibling with
  | some after => s.modifyNode after (fun n => { n with prevSibling := c.prevSibling })
  | none => s.modifyNode dir (fun n => { n with childTail := c.prevSibling })

/-- `vfs_dir_remove_child`.  The pointers of the child are read again after the first write. -/
def vfsDirRemoveChild (s : Vfs) (dir child : NodeId) : Option Vfs := do
  let d ← s.nodes dir
  if d.nodeType ≠ .directory then some s
  else
    let c ← s.nodes child
    let s ← bypassNext s dir c
    let c ← s.nodes child
    let s ← bypassPrev s dir c
    s.modifyNode child (fun n =>
      { n with parent := none, nextSibling := none, prevSibling := none })

/-- The descriptor table after `vfs_init`. -/
def closedFd : Fd := ⟨none, 0, 0⟩

/-- `vfs_init`, when `kmalloc` answers `addr`. -/
def vfsInit (s : Vfs) (addr : Option NodeId) : Int × Vfs :=
  match vfsCreateNode s addr [0x2F] .directory none with
  | (none, s) => (kernelFailure, { s with root := none })
  | (some a, s) => (kernelSuccess,
      { s with root := some a, cwd := some a, fdTable := fun _ => closedFd })

/-! ## 3. The ramfs operations -/

/-- `ramfs_open`. -/
def ramfsOpen (node : Option NodeId) (flags : Nat) : Int :=
  if node = none ∧ flags &&& oCreat = 0 then kernelFailure else kernelSuccess

/-- `ramfs_close`. -/
def ramfsClose (_node : NodeId) : Int := kernelSuccess

/-- `ramfs_read`: the result, and the bytes it puts in the caller's buffer. -/
def ramfsRead (node : VfsNode) (count offset : Nat) : Option (Int × List UInt8) :=
  if node.nodeType ≠ .file then some (kernelFailure, [])
  else
    match node.data with
    | none => some (0, [])
    | some data =>
      if offset ≥ data.size then some (0, [])
      else
        let bytesToRead :=
          if add32 offset count > data.size then sub32 data.size offset else count
        (copyOut data.content offset bytesToRead).map
          (fun bytes => ((bytesToRead : Int).bmod (2 ^ 32), bytes))

/-- What the allocator answers during one `ramfs_write`: whether there is memory for the file data,
and the bytes a larger buffer starts with, unless there is no memory for it. -/
structure Answers where
  kmalloc : Bool
  krealloc : Option (Nat → UInt8)

/-- `krealloc(old, n)`: the old bytes, then whatever was in memory. -/
def regrown (old : List UInt8) (n : Nat) (fresh : Nat → UInt8) : List UInt8 :=
  (List.range n).map (fun i => old.getD i (fresh i))

/-- `while (new_capacity < new_size) new_capacity *= 2`.  After 32 doublings a 32-bit word is 0, so a
loop that has not ended by its 33rd test never does. -/
def doubleUntil (newSize : Nat) : Nat → Nat → Option Nat
  | 0, _ => none
  | fuel + 1, newCapacity =>
    if newCapacity < newSize then doubleUntil newSize fuel (mul32 newCapacity 2)
    else some newCapacity

/-- The part of `ramfs_write` after the buffer is large enough. -/
def ramfsStore (node : VfsNode) (data : RamfsFileData) (buf : List UInt8) (offset : Nat) :
    Option (Int × VfsNode) :=
  let newSize := add32 offset buf.length
  (copyIn data.content offset buf).map (fun content =>
    ((buf.length : Int).bmod (2 ^ 32), { node with data := some { data with
      content := content
      size := if newSize > data.size then newSize else data.size } }))

/-- `ramfs_write` of the bytes `buf`.  When `krealloc` fails the file data is freed. -/
def ramfsWrite (answers : Answers) (node : VfsNode) (buf : List UInt8) (offset : Nat) :
    Option (Int × VfsNode) :=
  if node.nodeType ≠ .file then some (kernelFailure, node)
  else if node.data = none ∧ answers.kmalloc = false then some (kernelFailure, node)
  else
    let data := node.data.getD ⟨[], 0, 0⟩
    let newSize := add32 offset buf.length
    if newSize > data.capacity then do
      let newCapacity ←
        doubleUntil newSize 33 (if data.capacity = 0 then 256 else data.capacity)
      match answers.krealloc with
      | none => some (kernelFailure, { node with data := none })
      | some fresh =>
        let content := regrown data.content newCapacity fresh
        ramfsStore node { data with content := content, capacity := newCapacity } buf offset
    else ramfsStore node data buf offset

/-! ## 4. Descriptors -/

/-- `vfs_open` of a path that resolves to `node`. -/
def vfsOpen (s : Vfs) (node : Option NodeId) (flags : Nat) : Int × Vfs :=
  match node with
  | none => (kernelFailure, s)
  | some a =>
    if ramfsOpen (some a) flags ≠ kernelSuccess then (kernelFailure, s)
    else
      match (List.finRange maxOpenFiles).find? (fun i => (s.fdTable i).node.isNone) with
      | none => (kernelFailure, s)
      | some i => (i, s.setFd i ⟨some a, flags, 0⟩)

/-- `vfs_close`. -/
def vfsClose (s : Vfs) (fd : Int) : Int × Vfs :=
  match s.opened fd with
  | none => (kernelFailure, s)
  | some (i, a) =>
    if ramfsClose a ≠ kernelSuccess then (kernelFailure, s)
    else (kernelSuccess, s.setFd i closedFd)

/-- `fd_table[fd].offset += n`, if `n` is positive. -/
def Vfs.advance (s : Vfs) (i : Fin maxOpenFiles) (n : Int) : Vfs :=
  if n > 0 then s.setFd i { s.fdTable i with offset := add32 (s.fdTable i).offset n.toNat } else s

/-- `vfs_read`: the result, and the bytes put in the caller's buffer. -/
def vfsRead (s : Vfs) (fd : Int) (count : Nat) : Option (Int × List UInt8 × Vfs) :=
  match s.opened fd with
  | none => some (kernelFailure, [], s)
  | some (i, a) => do
    let node ← s.nodes a
    let (bytesRead, bytes) ← ramfsRead node count (s.fdTable i).offset
    some (bytesRead, bytes, s.advance i bytesRead)

/-- `vfs_write`. -/
def vfsWrite (answers : Answers) (s : Vfs) (fd : Int) (buf : List UInt8) : Option (Int × Vfs) :=
  match s.opened fd with
  | none => some (kernelFailure, s)
  | some (i, a) => do
    let node ← s.nodes a
    let (bytesWritten, node) ← ramfsWrite answers node buf (s.fdTable i).offset
    let s := { s with nodes := Function.update s.nodes a (some node) }
    some (bytesWritten, s.advance i bytesWritten)

/-! ## 5. What `vfs_dir_add_child` does -/

/-- Node `x` after `child` was appended to the children of `dir`, the last of which was `last`. -/
def linkNode (dir child : NodeId) (last : Option NodeId) (x : NodeId) (n : VfsNode) : VfsNode :=
  { n with
    parent := if x = child then some dir else n.parent
    childHead := if x = dir ∧ last = none then some child else n.childHead
    childTail := if x = dir then some child else n.childTail
    nextSibling := if x = child then none else if last = some x then some child else n.nextSibling
    prevSibling := if x = child then last else n.prevSibling }

/-- The writes of `vfs_dir_add_child` for a first child, as they meet node `x`. -/
theorem linkNode_first (dir child x : NodeId) (n : VfsNode) :
    (let n := if x = child then { n with parent := some dir } else n
      let n := if x = dir then { n with childHead := some child, childTail := some child } else n
      if x = child then { n with nextSibling := none, prevSibling := none } else n) =
      linkNode dir child none x n := by
  unfold linkNode
  rcases eq_or_ne x child with rfl | hxc
  · rcases eq_or_ne x dir with rfl | hxd
    · simp
    · simp [hxd]
  · rcases eq_or_ne x dir with rfl | hxd
    · simp [hxc]
    · simp [hxc, hxd]

/-- The same for a later one. -/
theorem linkNode_later (dir child tail x : NodeId) (n : VfsNode) :
    (let n := if x = child then { n with parent := some dir } else n
      let n := if x = tail then { n with nextSibling := some child } else n
      let n := if x = child then { n with prevSibling := some tail, nextSibling := none } else n
      if x = dir then { n with childTail := some child } else n) =
      linkNode dir child (some tail) x n := by
  have hlast : (some tail = some x) = (x = tail) := by simp [eq_comm]
  simp only [linkNode, hlast]
  split_ifs <;> simp_all

/-- All nodes after that. -/
def Vfs.link (s : Vfs) (dir child : NodeId) (last : Option NodeId) : Vfs :=
  { s with nodes := fun x => (s.nodes x).map (linkNode dir child last x) }

theorem modifyNode_eq {s s' : Vfs} {a : NodeId} {f : VfsNode → VfsNode}
    (h : s.modifyNode a f = some s') :
    (∃ n, s.nodes a = some n) ∧
      s' = { s with nodes := fun x => (s.nodes x).map (fun n => if x = a then f n else n) } := by
  obtain ⟨n, hn, rfl⟩ := Option.map_eq_some_iff.mp h
  refine ⟨⟨n, hn⟩, ?_⟩
  congr 1
  funext x
  rcases eq_or_ne x a with rfl | hx
  · simp [hn]
  · simp [hx]

/-- **One call**: it fails and changes nothing, or every node is as `linkNode` says. -/
theorem vfsDirAddChild_cases {s s' : Vfs} {dir child : NodeId} {r : Int}
    (h : vfsDirAddChild s dir child = some (r, s')) :
    (r = kernelFailure ∧ s' = s) ∨
      ∃ d n last, s.nodes dir = some d ∧ s.nodes child = some n ∧ r = kernelSuccess ∧
        (last = if d.childHead = none then none else d.childTail) ∧ s' = s.link dir child last := by
  unfold vfsDirAddChild at h
  obtain ⟨d, hd, h⟩ := Option.bind_eq_some_iff.mp h
  split at h
  · cases h
    exact Or.inl ⟨rfl, rfl⟩
  · right
    obtain ⟨s₁, h₁, h⟩ := Option.bind_eq_some_iff.mp h
    obtain ⟨⟨n, hn⟩, rfl⟩ := modifyNode_eq h₁
    split at h
    · rename_i hhead
      obtain ⟨s₂, h₂, h⟩ := Option.bind_eq_some_iff.mp h
      obtain ⟨-, rfl⟩ := modifyNode_eq h₂
      obtain ⟨s₃, h₃, h⟩ := Option.bind_eq_some_iff.mp h
      obtain ⟨-, rfl⟩ := modifyNode_eq h₃
      cases h
      refine ⟨d, n, none, hd, hn, rfl, by rw [if_pos hhead], ?_⟩
      simp only [Vfs.link, Option.map_map]
      congr 1
      funext x
      congr 1
      funext m
      exact linkNode_first dir child x m
    · rename_i first hhead
      obtain ⟨tail, htail, h⟩ := Option.bind_eq_some_iff.mp h
      obtain ⟨s₂, h₂, h⟩ := Option.bind_eq_some_iff.mp h
      obtain ⟨-, rfl⟩ := modifyNode_eq h₂
      obtain ⟨s₃, h₃, h⟩ := Option.bind_eq_some_iff.mp h
      obtain ⟨-, rfl⟩ := modifyNode_eq h₃
      obtain ⟨s₄, h₄, h⟩ := Option.bind_eq_some_iff.mp h
      obtain ⟨-, rfl⟩ := modifyNode_eq h₄
      cases h
      refine ⟨d, n, some tail, hd, hn, rfl, by rw [if_neg (by simp [hhead]), htail], ?_⟩
      simp only [Vfs.link, Option.map_map]
      congr 1
      funext x
      congr 1
      funext m
      exact linkNode_later dir child tail x m

end JarvOs.Fs
