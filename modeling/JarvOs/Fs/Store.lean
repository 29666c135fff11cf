/-
# Files as byte lists

What the descriptor calls of `vfs.c` are for: a store that has a list of bytes for every file, and a
file and an offset for every open descriptor (`storeStep`).  The store knows nothing of buffers,
capacities or what the allocator answers.

`vfs_refines_store` says that the code is that store, whatever the tree, the calls and the memory
`krealloc` hands out.  The invariant that carries it: a buffer has `capacity` bytes of which `size`
are the file (`FileOk`), and NO descriptor is past the end of its file.  The second half is why a
write never leaves a gap, so that every byte read was once written.
-/
import JarvOs.Fs.Vfs
import JarvOs.Lib.Trace

namespace JarvOs.Fs

open JarvOs.Lib

/-! ## 1. The abstract store -/

/-- A byte list for every file, a file and an offset for every open descriptor.  A directory is no
file. -/
structure Store where
  files : NodeId → Option (List UInt8)
  fds : Fin maxOpenFiles → Option (NodeId × Nat)

/-- The descriptor calls.  Paths may be anything. -/
inductive VfsOp (ρ : Type)
  | openPath (path : ρ) (flags : Nat)
  | close (fd : Int)
  | read (fd : Int) (count : Nat)
  | write (fd : Int) (buf : List UInt8) (answers : Answers)

/-- What a caller sees: the result, and the bytes put in its buffer. -/
abbrev VfsOut := Int × List UInt8

namespace Store

/-- The open descriptor `fd`. -/
def opened (t : Store) (fd : Int) : Option (Fin maxOpenFiles × NodeId × Nat) :=
  if h : 0 ≤ fd ∧ fd.toNat < maxOpenFiles then
    (t.fds ⟨fd.toNat, Vfs.fd_lt h⟩).map (fun p => (⟨fd.toNat, Vfs.fd_lt h⟩, p))
  else none

def setFd (t : Store) (i : Fin maxOpenFiles) (p : Option (NodeId × Nat)) : Store :=
  { t with fds := Function.update t.fds i p }

/-- The lowest descriptor that is not open. -/
def lowestFree (t : Store) : Option (Fin maxOpenFiles) := Fin.find? (fun i => (t.fds i).isNone)

end Store

/-- **One call on the store.**  What is closed or not a file answers -1 to a read or write. -/
def storeStep {ρ : Type} (lookup : ρ → Option NodeId) (t : Store) : VfsOp ρ → VfsOut × Store
  | .openPath path _ =>
    match lookup path, t.lowestFree with
    | some a, some i => ((i, []), t.setFd i (some (a, 0)))
    | _, _ => ((-1, []), t)
  | .close fd =>
    match t.opened fd with
    | some (i, _) => ((0, []), t.setFd i none)
    | none => ((-1, []), t)
  | .read fd count =>
    match t.opened fd with
    | none => ((-1, []), t)
    | some (i, a, off) =>
      match t.files a with
      | none => ((-1, []), t)
      | some bytes =>
        let got := (bytes.drop off).take count
        ((got.length, got), t.setFd i (some (a, off + got.length)))
  | .write fd buf _ =>
    match t.opened fd with
    | none => ((-1, []), t)
    | some (i, a, off) =>
      match t.files a with
      | none => ((-1, []), t)
      | some bytes =>
        ((buf.length, []), { t with files := Function.update t.files a (some (overlay bytes off buf)) }
          |>.setFd i (some (a, off + buf.length)))

/-- Allocations succeed, and offset plus count stays below 2^31. -/
def Small {ρ : Type} (t : Store) : VfsOp ρ → Prop
  | .read fd count => ∀ i a off, t.opened fd = some (i, a, off) → off + count < 2 ^ 31
  | .write fd buf answers => answers.kmalloc = true ∧ answers.krealloc ≠ none ∧
      ∀ i a off, t.opened fd = some (i, a, off) → off + buf.length < 2 ^ 31
  | _ => True

/-- The same call on `vfs.c`; `lookup` is `resolve_path`. -/
def vfsStep {ρ : Type} (lookup : ρ → Option NodeId) (s : Vfs) : VfsOp ρ → Option (VfsOut × Vfs)
  | .openPath path flags =>
    let (r, s) := vfsOpen s (lookup path) flags
    some ((r, []), s)
  | .close fd =>
    let (r, s) := vfsClose s fd
    some ((r, []), s)
  | .read fd count => (vfsRead s fd count).map (fun r => ((r.1, r.2.1), r.2.2))
  | .write fd buf answers => (vfsWrite answers s fd buf).map (fun r => ((r.1, []), r.2))

/-- The bytes of a node. -/
def VfsNode.contents (n : VfsNode) : List UInt8 :=
  match n.data with
  | none => []
  | some d => d.content.take d.size

/-- What the node is in the store. -/
def VfsNode.file (n : VfsNode) : Option (List UInt8) :=
  if n.nodeType = .file then some n.contents else none

/-- **The store the data of `vfs.c` stands for.** -/
def Vfs.store (s : Vfs) : Store where
  files := fun a => (s.nodes a).bind VfsNode.file
  fds := fun i => (s.fdTable i).node.map (fun a => (a, (s.fdTable i).offset))

/-! ## 2. One file -/

variable {node : VfsNode} {d : RamfsFileData} {buf : List UInt8} {offset count : Nat}

/-- The buffer has `capacity` bytes, and the file is not longer. -/
structure FileOk (d : RamfsFileData) : Prop where
  length : d.content.length = d.capacity
  size_le : d.size ≤ d.capacity

def NodeOk (n : VfsNode) : Prop := ∀ d, n.data = some d → FileOk d

theorem FileOk.length_take (h : FileOk d) : (d.content.take d.size).length = d.size := by
  rw [List.length_take, h.length, Nat.min_eq_left h.size_le]

theorem bmod_of_small {n : Nat} (h : n < 2 ^ 31) : (n : Int).bmod (2 ^ 32) = n := by
  rw [Int.bmod_eq_of_le] <;> omega

/-- **`ramfs_read`** inside the file. -/
theorem ramfsRead_spec (hn : NodeOk node) (hfile : node.nodeType = .file)
    (hsmall : offset + count < 2 ^ 31) :
    ramfsRead node count offset = some ((((node.contents.drop offset).take count).length : Int),
      (node.contents.drop offset).take count) := by
  unfold ramfsRead VfsNode.contents
  rw [if_neg (not_not.mpr hfile)]
  cases hd : node.data with
  | none => simp
  | some d =>
    have hok := hn d hd
    simp only
    split
    · rename_i hend
      have hnil : (d.content.take d.size).drop offset = [] := by
        rw [List.drop_eq_nil_iff, hok.length_take]
        exact hend
      simp [hnil]
    · rename_i hoff
      have hle := hok.size_le
      -- both ways to choose the number of bytes give the same minimum
      have hmin : (if add32 offset count > d.size then sub32 d.size offset else count) =
          min count (d.size - offset) := by
        rw [add32_of_lt (by omega)]
        split
        · rw [sub32_of_le (by omega) (by omega)]
          omega
        · omega
      have hlen : (((d.content.take d.size).drop offset).take count).length =
          min count (d.size - offset) := by
        rw [List.length_take, List.length_drop, hok.length_take]
      have hfront : (d.content.drop offset).take (min count (d.size - offset)) =
          ((d.content.take d.size).drop offset).take (min count (d.size - offset)) :=
        take_drop_take (by omega)
      rw [hmin, copyOut_of_le (by rw [hok.length]; omega), Option.map_some, hlen,
        bmod_of_small (by omega), hfront]
      congr 2
      rw [List.take_eq_take_iff, List.length_drop, hok.length_take]
      omega

/-- **The capacity loop** ends, with enough room. -/
theorem doubleUntil_spec {newSize : Nat} (hsmall : newSize < 2 ^ 31) :
    ∀ (fuel : Nat) {c : Nat}, 0 < c → newSize ≤ c * 2 ^ fuel →
      ∃ r, doubleUntil newSize (fuel + 1) c = some r ∧ newSize ≤ r ∧ c ≤ r
  | 0, c, _, hc => ⟨c, by rw [doubleUntil, if_neg (by omega)], by omega, le_rfl⟩
  | fuel + 1, c, h0, hc => by
    rw [doubleUntil]
    split
    · rename_i hlt
      rw [mul32_of_lt (by omega)]
      obtain ⟨r, hr, hle, hge⟩ := doubleUntil_spec hsmall fuel (c := c * 2) (by omega)
        (by rw [Nat.mul_assoc, ← Nat.pow_succ']; exact hc)
      exact ⟨r, hr, hle, by omega⟩
    · exact ⟨c, rfl, by omega, le_rfl⟩

theorem length_regrown (old : List UInt8) (n : Nat) (fresh : Nat → UInt8) :
    (regrown old n fresh).length = n := by
  rw [regrown, List.length_map, List.length_range]

/-- A larger buffer starts with the old one. -/
theorem take_regrown {old : List UInt8} {n k : Nat} {fresh : Nat → UInt8} (hk : k ≤ old.length)
    (hn : old.length ≤ n) : (regrown old n fresh).take k = old.take k := by
  refine List.ext_getElem (by simp [length_regrown]; omega) (fun i h₁ h₂ => ?_)
  rw [List.length_take] at h₂
  simp [regrown, List.getElem_take, List.getD_eq_getElem?_getD,
    List.getElem?_eq_getElem (show i < old.length by omega)]

/-- **The copy** of `ramfs_write`, once there is room. -/
theorem ramfsStore_spec (node : VfsNode) (hok : FileOk d) (hoff : offset ≤ d.size)
    (hroom : offset + buf.length ≤ d.capacity) (hsmall : offset + buf.length < 2 ^ 31) :
    ∃ d', ramfsStore node d buf offset = some ((buf.length : Int), { node with data := some d' }) ∧
      FileOk d' ∧ d'.content.take d'.size = overlay (d.content.take d.size) offset buf := by
  have hle := hok.size_le
  have hlen := hok.length
  have hmax : (if add32 offset buf.length > d.size then add32 offset buf.length else d.size) =
      max d.size (offset + buf.length) := by
    rw [add32_of_lt (by omega)]
    split <;> omega
  refine ⟨{ d with content := overlay d.content offset buf,
                   size := max d.size (offset + buf.length) }, ?_, ⟨?_, ?_⟩, ?_⟩
  · rw [ramfsStore, hmax, copyIn_of_le (by omega), Option.map_some, bmod_of_small (by omega)]
  · exact (length_overlay_of_le (by omega)).trans hok.length
  · exact max_le hok.size_le hroom
  · exact take_overlay hoff (by omega)

/-- **`ramfs_write`** at an offset inside the file or at its end, when allocations succeed. -/
theorem ramfsWrite_spec (hn : NodeOk node) (hfile : node.nodeType = .file)
    (hoff : offset ≤ node.contents.length) (hsmall : offset + buf.length < 2 ^ 31)
    {answers : Answers} (hk : answers.kmalloc = true) (hr : answers.krealloc ≠ none) :
    ∃ node', ramfsWrite answers node buf offset = some ((buf.length : Int), node') ∧
      NodeOk node' ∧ node'.nodeType = .file ∧
      node'.contents = overlay node.contents offset buf := by
  -- the data the node has, or that of an empty file
  obtain ⟨d, hd, hok, hcont⟩ : ∃ d, node.data.getD ⟨[], 0, 0⟩ = d ∧ FileOk d ∧
      node.contents = d.content.take d.size := by
    cases hdata : node.data with
    | none => exact ⟨_, rfl, ⟨rfl, le_rfl⟩, by simp [VfsNode.contents, hdata]⟩
    | some d => exact ⟨d, rfl, hn d hdata, by simp [VfsNode.contents, hdata]⟩
  obtain ⟨fresh, hfresh⟩ := Option.ne_none_iff_exists'.mp hr
  rw [hcont, hok.length_take] at hoff
  -- what is left once there is a buffer with the same file and enough room
  have hdone : ∀ {d' : RamfsFileData}, FileOk d' → d'.size = d.size →
      d'.content.take d.size = d.content.take d.size → offset + buf.length ≤ d'.capacity →
      ∃ node', ramfsStore node d' buf offset = some ((buf.length : Int), node') ∧ NodeOk node' ∧
        node'.nodeType = .file ∧ node'.contents = overlay node.contents offset buf := by
    intro d' hok' hsize hsame hroom
    obtain ⟨d'', hst, hok'', htake⟩ := ramfsStore_spec node hok' (hsize ▸ hoff) hroom hsmall
    refine ⟨_, hst, fun e he => ?_, hfile, ?_⟩
    · obtain rfl := Option.some.inj he
      exact hok''
    · rw [hcont, ← hsame, ← hsize]
      exact htake
  unfold ramfsWrite
  rw [if_neg (not_not.mpr hfile), if_neg (fun h => by simp [hk] at h)]
  simp only [hd, hfresh]
  rw [add32_of_lt (by omega)]
  split
  · rename_i hgrow
    obtain ⟨r, hrun, hle, hge⟩ := doubleUntil_spec hsmall 32
      (c := if d.capacity = 0 then 256 else d.capacity) (by split <;> omega)
      (by split <;> omega)
    have hcap : d.capacity ≤ r := by
      split at hge <;> omega
    rw [hrun]
    simp only [Option.bind_eq_bind, Option.bind_some]
    have hold : d.size ≤ d.content.length := by
      rw [hok.length]
      exact hok.size_le
    exact hdone ⟨length_regrown .., hok.size_le.trans hcap⟩ rfl
      (take_regrown hold (by rw [hok.length]; exact hcap)) hle
  · exact hdone hok rfl rfl (by omega)

/-! ## 3. One call -/

variable {ρ : Type} {lookup : ρ → Option NodeId} {s : Vfs} {i : Fin maxOpenFiles} {a : NodeId}

/-- The nodes paths lead to exist, buffers are in order, and no descriptor is past the end. -/
structure VfsInv (lookup : ρ → Option NodeId) (s : Vfs) : Prop where
  known : ∀ {path a}, lookup path = some a → (s.nodes a).isSome
  node : ∀ {a n}, s.nodes a = some n → NodeOk n
  fd : ∀ {i a off}, s.store.fds i = some (a, off) →
    (s.nodes a).isSome ∧ off ≤ ((s.store.files a).getD []).length

theorem store_opened (s : Vfs) (fd : Int) : s.store.opened fd =
    (s.opened fd).map (fun p => (p.1, p.2, (s.fdTable p.1).offset)) := by
  unfold Store.opened Vfs.opened
  split
  · simp [Vfs.store, Option.map_map, Function.comp_def]
  · rfl

/-- An open descriptor, on both sides. -/
theorem opened_eq_some {fd : Int} (h : s.opened fd = some (i, a)) :
    (s.fdTable i).node = some a ∧ s.store.fds i = some (a, (s.fdTable i).offset) ∧
      s.store.opened fd = some (i, a, (s.fdTable i).offset) := by
  have hnode : (s.fdTable i).node = some a := by
    unfold Vfs.opened at h
    split at h
    · obtain ⟨b, hb, heq⟩ := Option.map_eq_some_iff.mp h
      obtain ⟨rfl, rfl⟩ := Prod.mk.inj heq
      exact hb
    · exact absurd h (by simp)
  refine ⟨hnode, by simp [Vfs.store, hnode], ?_⟩
  rw [store_opened, h, Option.map_some]

/-- Descriptors do not change what the files are. -/
theorem store_setFd (s : Vfs) (i : Fin maxOpenFiles) (f : Fd) :
    (s.setFd i f).store = s.store.setFd i (f.node.map (fun a => (a, f.offset))) := by
  simp only [Vfs.store, Vfs.setFd, Store.setFd, Store.mk.injEq, true_and]
  funext j
  rcases eq_or_ne j i with rfl | hj
  · simp
  · simp [hj]

/-- **An advance** moves one descriptor. -/
theorem store_advance (hnode : (s.fdTable i).node = some a) {n : Nat}
    (hsmall : (s.fdTable i).offset + n < 2 ^ 31) :
    (s.advance i n).store = s.store.setFd i (some (a, (s.fdTable i).offset + n)) := by
  unfold Vfs.advance
  split
  · rw [store_setFd, hnode, Option.map_some, Int.toNat_natCast, add32_of_lt (by omega)]
  · rename_i hn
    have hzero : n = 0 := by omega
    simp only [Store.setFd, hzero, Nat.add_zero]
    have hsame : s.store.fds i = some (a, (s.fdTable i).offset) := by simp [Vfs.store, hnode]
    rw [← hsame, Function.update_eq_self]

theorem nodes_advance (s : Vfs) (i : Fin maxOpenFiles) (n : Int) : (s.advance i n).nodes = s.nodes := by
  unfold Vfs.advance
  split <;> rfl

/-- **What keeps the invariant**: the descriptor that has changed is not past the end, files have
not become shorter, and nodes have not gone. -/
theorem VfsInv.step {s' : Vfs} (h : VfsInv lookup s) {p : Option (NodeId × Nat)}
    (hfds : s'.store.fds = Function.update s.store.fds i p)
    (hnodes : ∀ b, (s.nodes b).isSome → (s'.nodes b).isSome)
    (hok : ∀ {b n}, s'.nodes b = some n → NodeOk n)
    (hgrow : ∀ b, ((s.store.files b).getD []).length ≤ ((s'.store.files b).getD []).length)
    (hp : ∀ b off, p = some (b, off) →
      (s'.nodes b).isSome ∧ off ≤ ((s'.store.files b).getD []).length) : VfsInv lookup s' := by
  refine ⟨fun hl => hnodes _ (h.known hl), hok, fun {j b off} hj => ?_⟩
  rw [hfds] at hj
  rcases eq_or_ne j i with rfl | hne
  · rw [Function.update_self] at hj
    exact hp b off hj
  · rw [Function.update_of_ne hne] at hj
    obtain ⟨hb, hle⟩ := h.fd hj
    exact ⟨hnodes b hb, hle.trans (hgrow b)⟩

/-- A call that only changes a descriptor. -/
theorem VfsInv.setFd {s' : Vfs} (h : VfsInv lookup s) {p : Option (NodeId × Nat)}
    (hst : s'.store = s.store.setFd i p) (hnodes : s'.nodes = s.nodes)
    (hp : ∀ b off, p = some (b, off) →
      (s.nodes b).isSome ∧ off ≤ ((s.store.files b).getD []).length) : VfsInv lookup s' := by
  have hfiles : s'.store.files = s.store.files := by rw [hst, Store.setFd]
  refine h.step (by rw [hst, Store.setFd]) (fun b hb => hnodes ▸ hb)
    (fun hb => h.node (hnodes ▸ hb)) (fun b => by rw [hfiles]) (fun b off hb => ?_)
  rw [hfiles, hnodes]
  exact hp b off hb

theorem vfs_openPath (h : VfsInv lookup s) (path : ρ) (flags : Nat) :
    ∃ s', vfsStep lookup s (.openPath path flags) =
        some ((storeStep lookup s.store (.openPath path flags)).1, s') ∧ VfsInv lookup s' ∧
      s'.store = (storeStep lookup s.store (.openPath path flags)).2 := by
  have hfind : (List.finRange maxOpenFiles).find? (fun i => (s.fdTable i).node.isNone) =
      s.store.lowestFree := by
    simp [Store.lowestFree, Vfs.store, Fin.find?_eq_find?_finRange]
  simp only [vfsStep, vfsOpen, storeStep]
  cases hl : lookup path with
  | none => exact ⟨s, rfl, h, rfl⟩
  | some a =>
    simp only [hfind, ramfsOpen]
    cases s.store.lowestFree with
    | none => exact ⟨s, by simp, h, rfl⟩
    | some i =>
      have hst := store_setFd s i ⟨some a, flags, 0⟩
      refine ⟨s.setFd i ⟨some a, flags, 0⟩, by simp, h.setFd hst rfl ?_, hst⟩
      intro b off hb
      obtain ⟨rfl, rfl⟩ := Prod.mk.inj (Option.some.inj hb)
      exact ⟨h.known hl, Nat.zero_le _⟩

theorem vfs_close (h : VfsInv lookup s) (fd : Int) :
    ∃ s', vfsStep lookup s (.close fd) = some ((storeStep lookup s.store (.close fd)).1, s') ∧
      VfsInv lookup s' ∧ s'.store = (storeStep lookup s.store (.close fd)).2 := by
  simp only [vfsStep, vfsClose, storeStep, store_opened]
  cases s.opened fd with
  | none => exact ⟨s, rfl, h, rfl⟩
  | some p =>
    have hst := store_setFd s p.1 closedFd
    exact ⟨s.setFd p.1 closedFd, rfl, h.setFd hst rfl (fun b off hb => absurd hb (by simp [closedFd])),
      hst⟩

/-- The node of an open descriptor. -/
theorem VfsInv.opened (h : VfsInv lookup s) {fd : Int} (hfd : s.opened fd = some (i, a)) :
    ∃ n, s.nodes a = some n ∧ NodeOk n ∧ s.store.files a = n.file ∧
      (s.fdTable i).offset ≤ (n.file.getD []).length := by
  obtain ⟨hsome, hle⟩ := h.fd (opened_eq_some hfd).2.1
  obtain ⟨n, hn⟩ := Option.isSome_iff_exists.mp hsome
  have hfile : s.store.files a = n.file := by simp [Vfs.store, hn]
  exact ⟨n, hn, h.node hn, hfile, hfile ▸ hle⟩

/-- Something that is no file is left alone. -/
theorem ramfs_notFile (hty : node.nodeType ≠ .file) (count offset : Nat) (buf : List UInt8)
    (answers : Answers) : node.file = none ∧ ramfsRead node count offset = some (-1, []) ∧
      ramfsWrite answers node buf offset = some (-1, node) :=
  ⟨if_neg hty, if_pos hty, if_pos hty⟩

theorem file_of_type (hty : node.nodeType = .file) : node.file = some node.contents := if_pos hty

theorem vfs_read (h : VfsInv lookup s) {fd : Int} {count : Nat}
    (hsmall : Small (ρ := ρ) s.store (.read fd count)) :
    ∃ s', vfsStep lookup s (.read fd count) =
        some ((storeStep lookup s.store (.read fd count)).1, s') ∧ VfsInv lookup s' ∧
      s'.store = (storeStep lookup s.store (.read fd count)).2 := by
  cases hfd : s.opened fd with
  | none => exact ⟨s, by simp [vfsStep, vfsRead, storeStep, store_opened, hfd], h,
      by simp [storeStep, store_opened, hfd]⟩
  | some p =>
    obtain ⟨i, a⟩ := p
    obtain ⟨hnode, hfds, hopen⟩ := opened_eq_some hfd
    obtain ⟨n, hn, hok, hfile, hle⟩ := h.opened hfd
    simp only [vfsStep, vfsRead, storeStep, hopen, hfd, hn, hfile, Option.bind_eq_bind,
      Option.bind_some]
    rcases eq_or_ne n.nodeType .file with hty | hty
    · have hlt := hsmall i a _ hopen
      have hrun := ramfsRead_spec hok hty hlt
      rw [file_of_type hty] at hfile hle
      have hlen : ((n.contents.drop (s.fdTable i).offset).take count).length ≤ count :=
        List.length_take_le ..
      have hst := store_advance hnode (n := ((n.contents.drop (s.fdTable i).offset).take count).length)
        (by omega)
      rw [hrun, file_of_type hty]
      refine ⟨s.advance i _, rfl, h.setFd hst (nodes_advance ..) ?_, hst⟩
      intro b off hb
      obtain ⟨rfl, rfl⟩ := Prod.mk.inj (Option.some.inj hb)
      refine ⟨by simp [hn], ?_⟩
      rw [hfile, Option.getD_some, List.length_take, List.length_drop]
      rw [Option.getD_some] at hle
      omega
    · obtain ⟨hnone, hrun, -⟩ := ramfs_notFile hty count (s.fdTable i).offset [] ⟨true, none⟩
      rw [hrun, hnone]
      exact ⟨s, by simp [Vfs.advance], h, rfl⟩

/-- The store after a file has been written. -/
theorem store_setNode (s : Vfs) (a : NodeId) (n : VfsNode) :
    Vfs.store { s with nodes := Function.update s.nodes a (some n) } =
      { s.store with files := Function.update s.store.files a n.file } := by
  simp only [Vfs.store, Store.mk.injEq, and_true]
  funext b
  rcases eq_or_ne b a with rfl | hb
  · simp
  · simp [hb]

theorem vfs_write (h : VfsInv lookup s) {fd : Int} {buf : List UInt8} {answers : Answers}
    (hsmall : Small (ρ := ρ) s.store (.write fd buf answers)) :
    ∃ s', vfsStep lookup s (.write fd buf answers) =
        some ((storeStep lookup s.store (.write fd buf answers)).1, s') ∧ VfsInv lookup s' ∧
      s'.store = (storeStep lookup s.store (.write fd buf answers)).2 := by
  cases hfd : s.opened fd with
  | none => exact ⟨s, by simp [vfsStep, vfsWrite, storeStep, store_opened, hfd], h,
      by simp [storeStep, store_opened, hfd]⟩
  | some p =>
    obtain ⟨i, a⟩ := p
    obtain ⟨hnode, hfds, hopen⟩ := opened_eq_some hfd
    obtain ⟨n, hn, hok, hfile, hle⟩ := h.opened hfd
    obtain ⟨hk, hr, hlt⟩ := hsmall
    simp only [vfsStep, vfsWrite, storeStep, hopen, hfd, hn, hfile, Option.bind_eq_bind,
      Option.bind_some]
    rcases eq_or_ne n.nodeType .file with hty | hty
    · rw [file_of_type hty] at hfile hle
      rw [Option.getD_some] at hle
      obtain ⟨n', hrun, hok', hty', hcont⟩ :=
        ramfsWrite_spec hok hty hle (hlt i a _ hopen) hk hr
      have hnode' : (Vfs.fdTable { s with nodes := Function.update s.nodes a (some n') } i).node =
          some a := hnode
      have hst := store_advance hnode' (hlt i a _ hopen)
      rw [store_setNode, file_of_type hty', hcont] at hst
      rw [hrun, file_of_type hty]
      refine ⟨_, rfl, ?_, hst⟩
      have hlen : n.contents.length ≤ (overlay n.contents (s.fdTable i).offset buf).length := by
        rw [length_overlay hle]
        exact le_max_left ..
      refine h.step (by rw [hst]; rfl) (fun b hb => ?_) (fun {b m} hb => ?_) (fun b => ?_)
        (fun b off hb => ?_)
      · rw [nodes_advance]
        rcases eq_or_ne b a with rfl | hne
        · simp
        · simpa [hne] using hb
      · rw [nodes_advance] at hb
        rcases eq_or_ne b a with rfl | hne
        · simp only [Function.update_self, Option.some.injEq] at hb
          exact hb ▸ hok'
        · simp only [Function.update_of_ne hne] at hb
          exact h.node hb
      · rw [hst, Store.setFd]
        rcases eq_or_ne b a with rfl | hne
        · simpa [hfile] using hlen
        · simp [hne]
      · obtain ⟨rfl, rfl⟩ := Prod.mk.inj (Option.some.inj hb)
        refine ⟨by simp [nodes_advance], ?_⟩
        rw [hst, Store.setFd]
        simp only [Function.update_self, Option.getD_some]
        rw [length_overlay hle]
        exact le_max_right ..
    · obtain ⟨hnone, -, hrun⟩ := ramfs_notFile hty 0 (s.fdTable i).offset buf answers
      rw [hrun, hnone]
      refine ⟨s, ?_, h, rfl⟩
      simp [Vfs.advance, ← hn]

/-- **One call is one step of the store.** -/
theorem vfsStep_store (h : VfsInv lookup s) {op : VfsOp ρ} (hsmall : Small s.store op) :
    ∃ s', vfsStep lookup s op = some ((storeStep lookup s.store op).1, s') ∧ VfsInv lookup s' ∧
      s'.store = (storeStep lookup s.store op).2 := by
  cases op with
  | openPath path flags => exact vfs_openPath h path flags
  | close fd => exact vfs_close h fd
  | read fd count => exact vfs_read h hsmall
  | write fd buf answers => exact vfs_write h hsmall

/-! ## 4. Every history -/

/-- The calls that build a tree; `addr` is what `kmalloc` answers. -/
inductive BuildOp
  | createNode (addr : Option NodeId) (name : List UInt8) (nodeType : VfsNodeType)
      (parent : Option NodeId)
  | addChild (dir child : NodeId)

def buildStep (s : Vfs) : BuildOp → Option Vfs
  | .createNode addr name nodeType parent => some (vfsCreateNode s addr name nodeType parent).2
  | .addChild dir child => (vfsDirAddChild s dir child).map Prod.snd

/-- The data of `vfs.c` before `vfs_init`. -/
def bssVfs : Vfs := ⟨fun _ => none, none, none, fun _ => closedFd⟩

/-- No descriptor is open and no file has data. -/
structure Blank (s : Vfs) : Prop where
  closed : ∀ i, (s.fdTable i).node = none
  empty : ∀ {a n}, s.nodes a = some n → n.data = none

theorem Blank.setNode (h : Blank s) (a : NodeId) {n : VfsNode} (hn : n.data = none) :
    Blank { s with nodes := Function.update s.nodes a (some n) } := by
  refine ⟨h.closed, fun {b m} hb => ?_⟩
  rcases eq_or_ne b a with rfl | hne
  · simp only [Function.update_self, Option.some.injEq] at hb
    exact hb ▸ hn
  · simp only [Function.update_of_ne hne] at hb
    exact h.empty hb

theorem Blank.createNode (h : Blank s) (addr : Option NodeId) (name : List UInt8)
    (nodeType : VfsNodeType) (parent : Option NodeId) :
    Blank (vfsCreateNode s addr name nodeType parent).2 := by
  cases addr with
  | none => exact h
  | some a => exact h.setNode a rfl

theorem Blank.addChild (h : Blank s) {dir child : NodeId} {r : Int × Vfs}
    (hrun : vfsDirAddChild s dir child = some r) : Blank r.2 := by
  obtain ⟨r, s'⟩ := r
  rcases vfsDirAddChild_cases hrun with ⟨-, rfl⟩ | ⟨d, n, last, -, -, -, -, rfl⟩
  · exact h
  · refine ⟨h.closed, fun {a m} hm => ?_⟩
    obtain ⟨n, hn, rfl⟩ := Option.map_eq_some_iff.mp hm
    have hdata : n.data = none := h.empty hn
    exact hdata

/-- A tree that has just been built. -/
theorem blank_built {root : NodeId} {builds : List BuildOp} {s₀ : Vfs}
    (hbuild : run buildStep (vfsInit bssVfs (some root)).2 builds = some s₀) : Blank s₀ := by
  have hinit : Blank (vfsInit bssVfs (some root)).2 := by
    have h := (Blank.mk (s := bssVfs) (fun _ => rfl) (fun h => absurd h (by simp [bssVfs]))).createNode
      (some root) [0x2F] .directory none
    exact ⟨fun _ => rfl, h.empty⟩
  refine run_inv (I := Blank) (fun s op t hs ht => ?_) builds _ s₀ hinit hbuild
  cases op with
  | createNode addr name nodeType parent =>
    obtain rfl := Option.some.inj ht
    exact hs.createNode ..
  | addChild dir child =>
    obtain ⟨r, hr, rfl⟩ := Option.map_eq_some_iff.mp ht
    exact hs.addChild hr

theorem Blank.contents (h : Blank s) {n : VfsNode} (hn : s.nodes a = some n) : n.contents = [] := by
  rw [VfsNode.contents, h.empty hn]

theorem Blank.inv (h : Blank s) (hlookup : ∀ path a, lookup path = some a → (s.nodes a).isSome) :
    VfsInv lookup s := by
  refine ⟨fun {path a} => hlookup path a, fun {a n} hn d hd => ?_, fun {i a off} hi => ?_⟩
  · exact absurd (hd.symm.trans (h.empty hn)) (by simp)
  · exact absurd hi (by simp [Vfs.store, h.closed i])

/-- All bytes written in a history. -/
def written (ops : List (VfsOp ρ)) : List UInt8 :=
  ops.flatMap (fun op => match op with
    | .write _ buf _ => buf
    | _ => [])

theorem mem_overlay {xs ys : List UInt8} {off : Nat} {b : UInt8} (hb : b ∈ overlay xs off ys) :
    b ∈ xs ∨ b ∈ ys := by
  simp only [overlay, List.mem_append] at hb
  rcases hb with (hb | hb) | hb
  · exact Or.inl (List.mem_of_mem_take hb)
  · exact Or.inr hb
  · exact Or.inl (List.mem_of_mem_drop hb)

/-- The store holds nothing but bytes of `W`. -/
def Store.Within (t : Store) (W : List UInt8) : Prop := ∀ a bytes, t.files a = some bytes → bytes ⊆ W

/-- One call puts only bytes of its own buffer in a file, and answers with bytes of one. -/
theorem storeStep_within (lookup : ρ → Option NodeId) {t : Store} {W : List UInt8} (h : t.Within W) {op : VfsOp ρ}
    (hop : written [op] ⊆ W) :
    (storeStep lookup t op).1.2 ⊆ W ∧ (storeStep lookup t op).2.Within W := by
  cases op with
  | openPath path flags =>
    simp only [storeStep]
    split
    · exact ⟨List.nil_subset _, h⟩
    · exact ⟨List.nil_subset _, h⟩
  | close fd =>
    simp only [storeStep]
    split
    · exact ⟨List.nil_subset _, h⟩
    · exact ⟨List.nil_subset _, h⟩
  | read fd count =>
    simp only [storeStep]
    split
    · exact ⟨List.nil_subset _, h⟩
    · split
      · exact ⟨List.nil_subset _, h⟩
      · rename_i bytes hbytes
        exact ⟨fun b hb => h _ _ hbytes (List.mem_of_mem_drop (List.mem_of_mem_take hb)), h⟩
  | write fd buf answers =>
    simp only [storeStep]
    split
    · exact ⟨List.nil_subset _, h⟩
    · rename_i i a off _
      split
      · exact ⟨List.nil_subset _, h⟩
      · rename_i bytes hbytes
        refine ⟨List.nil_subset _, fun b bs hb x hx => ?_⟩
        simp only [Store.setFd] at hb
        rcases eq_or_ne b a with rfl | hne
        · rw [Function.update_self, Option.some.injEq] at hb
          rw [← hb] at hx
          rcases mem_overlay hx with hx | hx
          · exact h _ _ hbytes hx
          · exact hop (by simpa [written] using hx)
        · rw [Function.update_of_ne hne] at hb
          exact h b bs hb hx

/-- **Nothing is read that was not written.** -/
theorem ideal_within : ∀ {ops : List (VfsOp ρ)} {t : Store} {W : List UInt8}, t.Within W →
    written ops ⊆ W → ∀ out ∈ (ideal (storeStep lookup) t ops).1, out.2 ⊆ W
  | [], _, _, _, _ => by simp [ideal]
  | op :: ops, t, W, h, hW => by
    have hsplit : written (op :: ops) = written [op] ++ written ops := by simp [written]
    rw [hsplit, List.append_subset] at hW
    obtain ⟨hout, hnext⟩ := storeStep_within lookup h hW.1
    intro out hmem
    rcases List.mem_cons.mp hmem with rfl | hmem
    · exact hout
    · exact ideal_within hnext hW.2 out hmem

/-- **Descriptors and files.**  For every tree that has been built, every lookup function into it and
every sequence of calls in which allocations succeed and offsets stay small, `vfs.c` answers every
call as the abstract store does and ends in a state that stands for the store's.  The store starts
with every file empty and every descriptor closed; at the end no descriptor is past the end of its
file; and no call has returned a byte that was not written. -/
theorem vfs_refines_store (lookup : ρ → Option NodeId) {root : NodeId} {builds : List BuildOp}
    {s₀ : Vfs} (hbuild : run buildStep (vfsInit bssVfs (some root)).2 builds = some s₀)
    (hlookup : ∀ path a, lookup path = some a → (s₀.nodes a).isSome) (ops : List (VfsOp ρ))
    (hsmall : Along (fun t op => some (storeStep lookup t op).2) Small s₀.store ops) :
    (∀ i, s₀.store.fds i = none) ∧ (∀ a bytes, s₀.store.files a = some bytes → bytes = []) ∧
    ∃ outs s, answers (vfsStep lookup) s₀ ops = some (outs, s) ∧
      ideal (storeStep lookup) s₀.store ops = (outs, s.store) ∧
      (∀ i a off, s.store.fds i = some (a, off) → off ≤ ((s.store.files a).getD []).length) ∧
      ∀ out ∈ outs, out.2 ⊆ written ops := by
  have hblank := blank_built hbuild
  have hfiles : ∀ a bytes, s₀.store.files a = some bytes → bytes = [] := by
    intro a bytes hb
    obtain ⟨n, hn, hfile⟩ := Option.bind_eq_some_iff.mp hb
    rw [VfsNode.file, hblank.contents hn] at hfile
    split at hfile
    · exact (Option.some.inj hfile).symm
    · exact absurd hfile (by simp)
  obtain ⟨s, hrun, hinv, hst⟩ := answers_refine (A := Vfs.store) (I := VfsInv lookup) (P := Small)
    (fun _ _ h hop => vfsStep_store h hop) ops s₀ (hblank.inv hlookup) hsmall
  refine ⟨fun i => by simp [Vfs.store, hblank.closed i], hfiles, _, s, hrun, ?_,
    fun i a off hi => (hinv.fd hi).2, ideal_within (fun a bytes hb => ?_) (List.Subset.refl _)⟩
  · rw [hst]
  · rw [hfiles a bytes hb]
    exact List.nil_subset _

/-- One file in the root directory. -/
def sampleBuilds : List BuildOp := [.createNode (some 1) [0x61] .file none, .addChild 0 1]

/-- It is opened twice, written through the first descriptor and read through the second. -/
def sampleOps : List (VfsOp Unit) :=
  [.openPath () 0, .write 0 [0x68, 0x69] ⟨true, some fun _ => 0xCC⟩, .openPath () 0, .read 1 5]

theorem vfs_refines_store_sample : ∃ s₀ s,
    run buildStep (vfsInit bssVfs (some 0)).2 sampleBuilds = some s₀ ∧
    answers (vfsStep fun _ => some 1) s₀ sampleOps =
      some ([(0, []), (2, []), (1, []), (2, [0x68, 0x69])], s) ∧
    s.store.fds 1 = some (1, 2) ∧ s.store.files 1 = some [0x68, 0x69] := by
  obtain ⟨s₀, hs₀⟩ : ∃ s₀, run buildStep (vfsInit bssVfs (some 0)).2 sampleBuilds = some s₀ :=
    ⟨_, rfl⟩
  have hst : s₀.store = ⟨fun a => if a = 1 then some [] else none, fun _ => none⟩ := by
    obtain rfl := Option.some.inj hs₀
    simp only [Vfs.store, Store.mk.injEq]
    refine ⟨funext fun a => ?_, rfl⟩
    match a with
    | 0 => rfl
    | 1 => rfl
    | a + 2 => simp [vfsInit, vfsCreateNode, bssVfs]
  have hknown : ∀ (path : Unit) a, (fun _ => some 1) path = some a → (s₀.nodes a).isSome := by
    intro _ a ha
    obtain rfl := Option.some.inj ha
    obtain rfl := Option.some.inj hs₀
    rfl
  have hsmall : Along (fun t op => some (storeStep (fun _ => some 1) t op).2) Small s₀.store
      sampleOps := by
    rw [hst]
    refine ⟨trivial, fun t ht => ?_⟩
    obtain rfl : Store.mk _ (Function.update (fun _ => none) 0 (some (1, 0))) = t := Option.some.inj ht
    refine ⟨⟨rfl, by simp, fun i a off h => ?_⟩, fun t ht => ?_⟩
    · obtain ⟨-, h⟩ := Prod.mk.inj (Option.some.inj h)
      obtain ⟨-, rfl⟩ := Prod.mk.inj h
      norm_num
    · obtain rfl := Option.some.inj ht
      refine ⟨trivial, fun t ht => ?_⟩
      obtain rfl : Store.mk _ (Function.update _ 1 (some (1, 0))) = t := Option.some.inj ht
      refine ⟨fun i a off h => ?_, fun _ _ => trivial⟩
      obtain ⟨-, h⟩ := Prod.mk.inj (Option.some.inj h)
      obtain ⟨-, rfl⟩ := Prod.mk.inj h
      norm_num
  obtain ⟨-, -, outs, s, hrun, hideal, -⟩ :=
    vfs_refines_store (fun _ : Unit => some 1) hs₀ hknown sampleOps hsmall
  rw [hst] at hideal
  obtain ⟨houts, hstore⟩ := Prod.mk.inj hideal
  refine ⟨s₀, s, hs₀, ?_, ?_, ?_⟩
  · rw [hrun, ← houts]
    rfl
  · rw [← hstore]
    rfl
  · rw [← hstore]
    rfl

end JarvOs.Fs
