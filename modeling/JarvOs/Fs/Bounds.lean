/-
# Reads and writes of any size (`ramfs_read` and `ramfs_write` in `kernel/fs/vfs.c`)

Offsets and counts are 32-bit words, and so is everything the two functions compute from them.  The
store of `Fs.Store` keeps them below 2^31; here they are ANY words, and the question is where the code
still does what it is for.

* `ramfs_read` clamps the count by comparing `offset + count` with the size.  A sum that wraps is
  smaller than the size, so nothing is clamped and the copy leaves the file; and a count of 2^31 or
  more comes back negative, so that `vfs_read` does not move the descriptor.
* `ramfs_write` doubles the capacity until it reaches `offset + count`.  A sum that wraps asks for too
  little; a sum that no doubling reaches in 32 bits is never reached at all, because the capacity
  becomes 0 and stays there.  For the capacities `ramfs_write` itself makes that is every sum above
  2^31 (`roomReached_doubled_iff`).

Both are `iff`s: where the condition holds the functions are right, everywhere else they are wrong.
-/
import JarvOs.Fs.Store

namespace JarvOs.Fs

open JarvOs.Lib

variable {n : VfsNode} {d : RamfsFileData} {buf : List UInt8} {offset count : Nat}

/-! ## 1. Reads -/

/-- The buffer of a file has a 32-bit capacity. -/
def SizedNode (n : VfsNode) : Prop := NodeOk n ∧ ∀ d, n.data = some d → d.capacity < 2 ^ 32

/-- A count that is clamped to the file, and comes back as it is. -/
def CountFits (length offset count : Nat) : Prop :=
  length ≤ offset ∨ (offset + count < 2 ^ 32 ∧ min count (length - offset) < 2 ^ 31)

instance (length offset count : Nat) : Decidable (CountFits length offset count) :=
  inferInstanceAs (Decidable (_ ∨ _))

theorem contents_length (hn : NodeOk n) (hd : n.data = some d) : n.contents.length = d.size := by
  rw [VfsNode.contents, hd]
  exact (hn d hd).length_take

/-- At the end of the file and behind it there is nothing to read. -/
theorem ramfsRead_end (hn : NodeOk n) (hfile : n.nodeType = .file)
    (hend : n.contents.length ≤ offset) : ramfsRead n count offset = some (0, []) := by
  unfold ramfsRead
  rw [if_neg (not_not.mpr hfile)]
  cases hd : n.data with
  | none => rfl
  | some d =>
    rw [contents_length hn hd] at hend
    simp only [if_pos hend]

/-- **A sum that does not wrap** clamps the count. -/
theorem ramfsRead_clamped (hn : SizedNode n) (hfile : n.nodeType = .file)
    (hin : offset < n.contents.length) (hsum : offset + count < 2 ^ 32) :
    ramfsRead n count offset =
      some (((min count (n.contents.length - offset) : Nat) : Int).bmod (2 ^ 32),
        (n.contents.drop offset).take count) := by
  unfold ramfsRead
  rw [if_neg (not_not.mpr hfile)]
  cases hd : n.data with
  | none => simp [VfsNode.contents, hd] at hin
  | some d =>
    have hok := hn.1 d hd
    have hcap := hn.2 d hd
    have hle := hok.size_le
    rw [contents_length hn.1 hd] at hin ⊢
    have hmin : (if add32 offset count > d.size then sub32 d.size offset else count) =
        min count (d.size - offset) := by
      rw [add32_of_lt hsum]
      split
      · rw [sub32_of_le (by omega) (by omega)]
        omega
      · omega
    simp only
    rw [if_neg (by omega), hmin, copyOut_of_le (by rw [hok.length]; omega), Option.map_some,
      take_drop_take (show offset + min count (d.size - offset) ≤ d.size by omega),
      VfsNode.contents, hd]
    congr 2
    rw [List.take_eq_take_iff, List.length_drop, hok.length_take]
    omega

/-- **A sum that wraps** is not clamped, and the copy leaves the buffer. -/
theorem ramfsRead_wrapped (hn : SizedNode n) (hfile : n.nodeType = .file)
    (hin : offset < n.contents.length) (hsum : 2 ^ 32 ≤ offset + count) (hcount : count < 2 ^ 32) :
    ramfsRead n count offset = none := by
  unfold ramfsRead
  rw [if_neg (not_not.mpr hfile)]
  cases hd : n.data with
  | none => simp [VfsNode.contents, hd] at hin
  | some d =>
    have hok := hn.1 d hd
    have hcap := hn.2 d hd
    have hle := hok.size_le
    rw [contents_length hn.1 hd] at hin
    have hwrap : add32 offset count = offset + count - 2 ^ 32 := by
      unfold add32
      omega
    simp only
    rw [if_neg (by omega), if_neg (by omega), copyOut, if_neg (by rw [hok.length]; omega),
      Option.map_none]

/-- The descriptor `i` moved on by `k` bytes. -/
def Vfs.moved (s : Vfs) (i : Fin maxOpenFiles) (k : Nat) : Vfs :=
  s.setFd i { s.fdTable i with offset := (s.fdTable i).offset + k }

/-- **What a read is for**: `ramfs_read` copies the part of the file that was asked for and is there,
and returns its length, and `vfs_read` moves the descriptor by that length. -/
structure ReadsExactly (s : Vfs) (fd : Int) (i : Fin maxOpenFiles) (n : VfsNode) (count : Nat) :
    Prop where
  ramfs : ramfsRead n count (s.fdTable i).offset =
    some (((min count (n.contents.length - (s.fdTable i).offset) : Nat) : Int),
      (n.contents.drop (s.fdTable i).offset).take count)
  vfs : vfsRead s fd count =
    some (((min count (n.contents.length - (s.fdTable i).offset) : Nat) : Int),
      (n.contents.drop (s.fdTable i).offset).take count,
      s.moved i (min count (n.contents.length - (s.fdTable i).offset)))

theorem moved_zero (s : Vfs) (i : Fin maxOpenFiles) : s.moved i 0 = s := by
  simp [Vfs.moved, Vfs.setFd]

/-- A positive advance that does not wrap moves the descriptor. -/
theorem advance_eq_moved {s : Vfs} {i : Fin maxOpenFiles} {k : Nat}
    (hk : (s.fdTable i).offset + k < 2 ^ 32) : s.advance i k = s.moved i k := by
  unfold Vfs.advance
  split
  · rw [Int.toNat_natCast, add32_of_lt hk]
    rfl
  · rename_i hneg
    obtain rfl : k = 0 := by omega
    rw [moved_zero]

/-- A count of 2^31 and more comes back negative. -/
theorem bmod_eq_self_iff {k : Nat} (hk : k < 2 ^ 32) :
    (k : Int).bmod (2 ^ 32) = k ↔ k < 2 ^ 31 := by
  refine ⟨fun h => ?_, bmod_of_small⟩
  by_contra hge
  have hlt := Int.bmod_lt (x := (k : Int)) (m := 2 ^ 32) (by norm_num)
  omega

/-- **Which reads are right.**  For every open descriptor of a file, whatever its offset, and every
32-bit count: the read copies exactly the bytes of the file from the offset on, as many as there are
and were asked for, returns their number, and moves the descriptor by it -- if and only if the
descriptor is at or behind the end, or the count neither makes the sum wrap nor is one that comes back
negative. -/
theorem ramfs_read_exact_iff {s : Vfs} {fd : Int} {i : Fin maxOpenFiles} {a : NodeId}
    (hfd : s.opened fd = some (i, a)) (hnode : s.nodes a = some n) (hn : SizedNode n)
    (hfile : n.nodeType = .file) (hcount : count < 2 ^ 32) :
    ReadsExactly s fd i n count ↔ CountFits n.contents.length (s.fdTable i).offset count := by
  have hvfs : vfsRead s fd count = (ramfsRead n count (s.fdTable i).offset).bind (fun r =>
      some (r.1, r.2, s.advance i r.1)) := by
    simp only [vfsRead, hfd, hnode, Option.bind_eq_bind, Option.bind_some]
  rcases Nat.lt_or_ge (s.fdTable i).offset n.contents.length with hin | hend
  · rcases Nat.lt_or_ge ((s.fdTable i).offset + count) (2 ^ 32) with hsum | hwrap
    · have hrun := ramfsRead_clamped hn hfile hin hsum
      have hback := bmod_eq_self_iff
        (show min count (n.contents.length - (s.fdTable i).offset) < 2 ^ 32 by omega)
      constructor
      · rintro ⟨hramfs, -⟩
        rw [hrun, Option.some.injEq, Prod.mk.injEq] at hramfs
        exact Or.inr ⟨hsum, hback.mp hramfs.1⟩
      · rintro (hle | ⟨-, hsmall⟩)
        · omega
        · rw [hback.mpr hsmall] at hrun
          refine ⟨hrun, ?_⟩
          rw [hvfs, hrun, Option.bind_some, advance_eq_moved (by omega)]
    · have hrun := ramfsRead_wrapped hn hfile hin hwrap hcount
      refine iff_of_false ?_ ?_
      · rintro ⟨hramfs, -⟩
        rw [hrun] at hramfs
        cases hramfs
      · rintro (hle | ⟨hsum, -⟩)
        · omega
        · omega
  · refine iff_of_true ?_ (Or.inl hend)
    have hrun : ramfsRead n count (s.fdTable i).offset = some (0, []) :=
      ramfsRead_end hn.1 hfile hend
    have hnone : min count (n.contents.length - (s.fdTable i).offset) = 0 := by omega
    have hnil : (n.contents.drop (s.fdTable i).offset).take count = [] := by
      rw [List.drop_eq_nil_of_le hend, List.take_nil]
    refine ⟨?_, ?_⟩
    · rw [hrun, hnone, hnil]
      rfl
    · rw [hvfs, hrun, hnone, hnil, moved_zero]
      rfl

/-- A file with the given data. -/
def fileNode (data : Option RamfsFileData) : VfsNode where
  nodeType := .file
  name := [0x66]
  data := data
  parent := none
  childHead := none
  childTail := none
  nextSibling := none
  prevSibling := none

/-- A file of the two bytes `AB`. -/
def twoByteNode : VfsNode := fileNode (some ⟨[0x41, 0x42], 2, 2⟩)

/-- A tree of that file, with a descriptor at its second byte. -/
def twoByteFile : Vfs where
  nodes b := if b = 8 then some twoByteNode else none
  root := none
  cwd := none
  fdTable i := if i.val = 0 then ⟨some 8, 0, 1⟩ else closedFd

theorem twoByteNode_sized : SizedNode twoByteNode := by
  refine ⟨?_, ?_⟩
  · rintro d ⟨⟩
    exact ⟨rfl, le_refl 2⟩
  · rintro d ⟨⟩
    norm_num

theorem ramfs_read_second_byte : ReadsExactly twoByteFile 0 0 twoByteNode 5 ∧
    vfsRead twoByteFile 0 5 = some (1, [0x42], twoByteFile.moved 0 1) := by
  have hread : ReadsExactly twoByteFile 0 0 twoByteNode 5 :=
    (ramfs_read_exact_iff (a := 8) rfl rfl twoByteNode_sized rfl (by norm_num)).mpr (by decide)
  exact ⟨hread, hread.vfs⟩

/-- **A read that leaves the file.**  One byte of the file is left, and 2^32 - 1 bytes are asked for:
the sum wraps to 0, the count is not clamped, and the copy runs out of the buffer. -/
theorem ramfs_read_unclamped : twoByteNode.contents.drop 1 = [0x42] ∧
    ramfsRead twoByteNode (2 ^ 32 - 1) 1 = none ∧ vfsRead twoByteFile 0 (2 ^ 32 - 1) = none := by
  have hrun : ramfsRead twoByteNode (2 ^ 32 - 1) 1 = none := by decide
  have hfd : twoByteFile.opened 0 = some (0, 8) := rfl
  have hnode : twoByteFile.nodes 8 = some twoByteNode := rfl
  have hoff : (twoByteFile.fdTable 0).offset = 1 := rfl
  refine ⟨rfl, hrun, ?_⟩
  simp only [vfsRead, hfd, hnode, hoff, hrun, Option.bind_eq_bind, Option.bind_some,
    Option.bind_none]

/-! ## 2. The capacity loop -/

theorem mul32_two_pow (c k : Nat) : mul32 (c * 2 ^ k % 2 ^ 32) 2 = c * 2 ^ (k + 1) % 2 ^ 32 := by
  rw [mul32, Nat.mod_mul_mod, Nat.mul_assoc, ← Nat.pow_succ]

/-- The loop stops at the first doubling that is large enough. -/
theorem doubleUntil_eq_some {newSize c r : Nat} (fuel : Nat) :
    ∀ k, doubleUntil newSize fuel (c * 2 ^ k % 2 ^ 32) = some r →
      newSize ≤ r ∧ ∃ j, r = c * 2 ^ j % 2 ^ 32 := by
  induction fuel with
  | zero =>
    intro k h
    cases h
  | succ fuel ih =>
    intro k h
    rw [doubleUntil] at h
    split at h
    · rw [mul32_two_pow] at h
      exact ih (k + 1) h
    · rename_i hge
      obtain rfl := Option.some.inj h
      exact ⟨by omega, k, rfl⟩

/-- A doubling that is large enough stops the loop, if there is fuel to come to it. -/
theorem doubleUntil_of_le {newSize c j : Nat} (hj : newSize ≤ c * 2 ^ j % 2 ^ 32) (fuel : Nat) :
    ∀ k, k ≤ j → j < k + fuel → (doubleUntil newSize fuel (c * 2 ^ k % 2 ^ 32)).isSome := by
  induction fuel with
  | zero =>
    intro k hk hlt
    omega
  | succ fuel ih =>
    intro k hk hlt
    rw [doubleUntil]
    split
    · rename_i hsmall
      rw [mul32_two_pow]
      have hne : k ≠ j := by
        rintro rfl
        omega
      exact ih (k + 1) (by omega) (by omega)
    · rfl

theorem pow_zero_word {c : Nat} (hc : c < 2 ^ 32) : c * 2 ^ 0 % 2 ^ 32 = c := by
  rw [pow_zero, Nat.mul_one, Nat.mod_eq_of_lt hc]

/-- What the loop ends with. -/
theorem doubleUntil_some {newSize c r : Nat} (hc : c < 2 ^ 32)
    (h : doubleUntil newSize 33 c = some r) : newSize ≤ r ∧ ∃ k, r = c * 2 ^ k % 2 ^ 32 := by
  rw [← pow_zero_word hc] at h
  exact doubleUntil_eq_some 33 0 h

/-- **When the capacity loop ends**: some number of doublings, in 32 bits, is large enough.  The number
is not bounded here: after 32 doublings a word has become 0, so the 33 tests of the model are as good
as any number of them. -/
theorem doubleUntil_isSome {newSize c k : Nat} (hc : c < 2 ^ 32) (hpos : 0 < newSize)
    (hk : newSize ≤ c * 2 ^ k % 2 ^ 32) : (doubleUntil newSize 33 c).isSome := by
  have hk32 : k < 33 := by
    by_contra hge
    obtain ⟨e, rfl⟩ : ∃ e, k = 32 + e := ⟨k - 32, by omega⟩
    have hgone : c * 2 ^ (32 + e) % 2 ^ 32 = 0 := by
      rw [pow_add, Nat.mul_left_comm, Nat.mul_mod_right]
    omega
  rw [← pow_zero_word hc]
  exact doubleUntil_of_le hk 33 0 (Nat.zero_le k) (by omega)

/-! ## 3. Writes -/

/-- The file data `ramfs_write` works on: that of the node, or the empty one it makes. -/
def VfsNode.fileData (n : VfsNode) : RamfsFileData := n.data.getD ⟨[], 0, 0⟩

/-- Where the doubling starts. -/
def firstCapacity (capacity : Nat) : Nat := if capacity = 0 then 256 else capacity

/-- The write ends inside 32 bits, and in the buffer or in one the doubling gets to. -/
def RoomReached (capacity offset count : Nat) : Prop :=
  offset + count < 2 ^ 32 ∧ (offset + count ≤ capacity ∨
    ∃ k, offset + count ≤ firstCapacity capacity * 2 ^ k % 2 ^ 32)

/-- **What a write must do**, whatever the allocator answers: come to an end, and if it has copied,
have copied into the capacity.  In the model a loop that does not end and a copy that leaves the buffer
are both `none`, and a node without data has not been copied to. -/
def WriteInside (n : VfsNode) (buf : List UInt8) (offset : Nat) : Prop :=
  ∀ answers : Answers, ∃ r n', ramfsWrite answers n buf offset = some (r, n') ∧
    ∀ d, n'.data = some d → offset + buf.length ≤ d.capacity

theorem SizedNode.fileData (hn : SizedNode n) : FileOk n.fileData ∧ n.fileData.capacity < 2 ^ 32 := by
  unfold VfsNode.fileData
  cases hd : n.data with
  | none => exact ⟨⟨rfl, le_refl 0⟩, by norm_num⟩
  | some d => exact ⟨hn.1 d hd, hn.2 d hd⟩

theorem firstCapacity_lt {capacity : Nat} (h : capacity < 2 ^ 32) :
    firstCapacity capacity < 2 ^ 32 := by
  unfold firstCapacity
  split
  · norm_num
  · exact h

/-- A copy ends if and only if it stays in the buffer. -/
theorem ramfsStore_isSome_iff (n : VfsNode) (hlen : d.content.length = d.capacity) :
    (ramfsStore n d buf offset).isSome ↔ offset + buf.length ≤ d.capacity := by
  rw [ramfsStore, Option.isSome_map, copyIn, hlen]
  by_cases h : offset + buf.length ≤ d.capacity
  · simp [h]
  · simp [h]

/-- A copy that stays inside is one the write can end with. -/
theorem ramfsStore_inside (n : VfsNode) (hlen : d.content.length = d.capacity)
    (hin : offset + buf.length ≤ d.capacity) :
    ∃ r n', ramfsStore n d buf offset = some (r, n') ∧
      ∀ d', n'.data = some d' → offset + buf.length ≤ d'.capacity := by
  refine ⟨_, _, by rw [ramfsStore, copyIn_of_le (by rw [hlen]; exact hin), Option.map_some], ?_⟩
  intro d' hd'
  obtain rfl := Option.some.inj hd'
  exact hin

theorem ramfsStore_capacity {r : Int} {n' : VfsNode} (h : ramfsStore n d buf offset = some (r, n')) :
    n'.fileData.capacity = d.capacity := by
  obtain ⟨content, -, heq⟩ := Option.map_eq_some_iff.mp h
  obtain ⟨-, rfl⟩ := Prod.mk.inj heq
  rfl

/-- `ramfs_write` once the node has file data. -/
theorem ramfsWrite_run {answers : Answers} (hfile : n.nodeType = .file)
    (hk : ¬ (n.data = none ∧ answers.kmalloc = false)) :
    ramfsWrite answers n buf offset =
      if add32 offset buf.length > n.fileData.capacity then
        (doubleUntil (add32 offset buf.length) 33 (firstCapacity n.fileData.capacity)).bind
          (fun newCapacity => match answers.krealloc with
            | none => some (kernelFailure, { n with data := none })
            | some fresh => ramfsStore n { n.fileData with
                content := regrown n.fileData.content newCapacity fresh
                capacity := newCapacity } buf offset)
      else ramfsStore n n.fileData buf offset := by
  unfold ramfsWrite
  rw [if_neg (not_not.mpr hfile), if_neg hk]
  rfl

/-- An allocator that has memory takes the write to its copy. -/
theorem WriteInside.room (hn : SizedNode n) (hfile : n.nodeType = .file)
    (hinside : WriteInside n buf offset) : RoomReached n.fileData.capacity offset buf.length := by
  obtain ⟨hok, hcap⟩ := hn.fileData
  obtain ⟨r, n', hwrite, -⟩ := hinside ⟨true, some (fun _ => 0)⟩
  rw [ramfsWrite_run hfile (fun h => Bool.noConfusion h.2)] at hwrite
  split at hwrite
  · rename_i hgrow
    obtain ⟨c, hloop, hstore⟩ := Option.bind_eq_some_iff.mp hwrite
    obtain ⟨-, k, hk⟩ := doubleUntil_some (firstCapacity_lt hcap) hloop
    have hroom := (ramfsStore_isSome_iff n (length_regrown _ _ _)).mp
      (Option.isSome_of_eq_some hstore)
    simp only [hk] at hroom
    exact ⟨lt_of_le_of_lt hroom (Nat.mod_lt _ (by norm_num)), Or.inr ⟨k, hroom⟩⟩
  · have hroom := (ramfsStore_isSome_iff n hok.length).mp (Option.isSome_of_eq_some hwrite)
    exact ⟨lt_of_le_of_lt hroom hcap, Or.inl hroom⟩

/-- A reachable room is reached. -/
theorem writeInside_of_room (hn : SizedNode n) (hfile : n.nodeType = .file)
    (hroom : RoomReached n.fileData.capacity offset buf.length) : WriteInside n buf offset := by
  obtain ⟨hok, hcap⟩ := hn.fileData
  obtain ⟨hsum, hroom⟩ := hroom
  intro answers
  by_cases hk : n.data = none ∧ answers.kmalloc = false
  · refine ⟨kernelFailure, n, ?_, fun d hd => ?_⟩
    · unfold ramfsWrite
      rw [if_neg (not_not.mpr hfile), if_pos hk]
    · rw [hk.1] at hd
      cases hd
  · rw [ramfsWrite_run hfile hk, add32_of_lt hsum]
    split
    · rename_i hgrow
      obtain ⟨k, hk⟩ := hroom.resolve_left (by omega)
      obtain ⟨c, hloop⟩ := Option.isSome_iff_exists.mp
        (doubleUntil_isSome (firstCapacity_lt hcap) (by omega) hk)
      obtain ⟨hle, -⟩ := doubleUntil_some (firstCapacity_lt hcap) hloop
      rw [hloop, Option.bind_some]
      cases answers.krealloc with
      | none => exact ⟨kernelFailure, _, rfl, fun d hd => by cases hd⟩
      | some fresh => exact ramfsStore_inside n (length_regrown _ _ _) hle
    · exact ramfsStore_inside n hok.length (by omega)

/-- **Which writes stay inside.**  For every state of a file, every offset and every count of 32 bits, a
`ramfs_write` ends and copies only inside its capacity, whatever the allocator answers, if and only if
`offset + count` does not wrap and lies in the buffer or under some doubling of it. -/
theorem ramfs_write_inside_iff (hn : SizedNode n) (hfile : n.nodeType = .file) (offset : Nat)
    (buf : List UInt8) :
    WriteInside n buf offset ↔ RoomReached n.fileData.capacity offset buf.length :=
  ⟨WriteInside.room hn hfile, writeInside_of_room hn hfile⟩

theorem ramfs_write_third_byte : WriteInside twoByteNode [0x43] 2 :=
  (ramfs_write_inside_iff twoByteNode_sized rfl 2 [0x43]).mpr ⟨by decide, Or.inr ⟨1, by decide⟩⟩

/-- **Writes that do not end and writes that leave the buffer.**  For a file never written to, 2^31 + 1
bytes are more than any doubling of 256 reaches; and one byte at the last offset makes the sum 0, so
that the buffer is taken for large enough. -/
theorem ramfs_write_outside :
    (∀ krealloc, ramfsWrite ⟨true, krealloc⟩ (fileNode none) (List.replicate (2 ^ 31 + 1) 0) 0 =
      none) ∧
    (∀ answers, ramfsWrite answers twoByteNode [0x43] (2 ^ 32 - 1) = none) := by
  refine ⟨?_, ?_⟩
  · intro krealloc
    have hloop : doubleUntil (2 ^ 31 + 1) 33 (firstCapacity 0) = none := by decide
    have hcap : (fileNode none).fileData.capacity = 0 := rfl
    rw [ramfsWrite_run rfl (fun h => Bool.noConfusion h.2), hcap, List.length_replicate,
      add32_of_lt (by norm_num), Nat.zero_add, if_pos (by norm_num), hloop, Option.bind_none]
  · intro answers
    rfl

/-! ## 4. Files that have only been written to -/

/-- The capacities `ramfs_write` makes: 256 doubled some times. -/
def Doubled (capacity : Nat) : Prop := capacity = 0 ∨ ∃ e, 8 ≤ e ∧ e ≤ 31 ∧ capacity = 2 ^ e

/-- A doubling of a power of two is one, or 0. -/
theorem two_pow_mod (e : Nat) : 2 ^ e % 2 ^ 32 = if e ≤ 31 then 2 ^ e else 0 := by
  split
  · rename_i h
    exact Nat.mod_eq_of_lt (Nat.pow_lt_pow_right (by norm_num) (by omega))
  · rename_i h
    exact Nat.mod_eq_zero_of_dvd (Nat.pow_dvd_pow 2 (by omega))

theorem Doubled.first {capacity : Nat} (h : Doubled capacity) :
    ∃ e, 8 ≤ e ∧ e ≤ 31 ∧ firstCapacity capacity = 2 ^ e := by
  rcases h with rfl | ⟨e, h8, h31, rfl⟩
  · exact ⟨8, le_refl 8, by norm_num, rfl⟩
  · exact ⟨e, h8, h31, if_neg (Nat.two_pow_pos e).ne'⟩

/-- The loop keeps to these capacities. -/
theorem Doubled.loop {capacity newSize r : Nat} (h : Doubled capacity) (hgrow : capacity < newSize)
    (hloop : doubleUntil newSize 33 (firstCapacity capacity) = some r) : Doubled r := by
  obtain ⟨e, h8, h31, hfirst⟩ := h.first
  have hlt : firstCapacity capacity < 2 ^ 32 := by
    rw [hfirst]
    exact Nat.pow_lt_pow_right (by norm_num) (by omega)
  obtain ⟨hle, k, rfl⟩ := doubleUntil_some hlt hloop
  rw [hfirst, ← pow_add, two_pow_mod] at hle ⊢
  split at hle
  · rename_i hek
    rw [if_pos hek]
    exact Or.inr ⟨e + k, by omega, hek, rfl⟩
  · omega

/-- **A write keeps to these capacities.** -/
theorem Doubled.write {answers : Answers} {r : Int} {n' : VfsNode} (h : Doubled n.fileData.capacity)
    (hwrite : ramfsWrite answers n buf offset = some (r, n')) : Doubled n'.fileData.capacity := by
  by_cases hfile : n.nodeType = .file
  · by_cases hk : n.data = none ∧ answers.kmalloc = false
    · rw [ramfsWrite, if_neg (not_not.mpr hfile), if_pos hk] at hwrite
      obtain ⟨-, rfl⟩ := Prod.mk.inj (Option.some.inj hwrite)
      exact h
    · rw [ramfsWrite_run hfile hk] at hwrite
      split at hwrite
      · rename_i hgrow
        obtain ⟨c, hloop, hstore⟩ := Option.bind_eq_some_iff.mp hwrite
        cases hans : answers.krealloc with
        | none =>
          rw [hans] at hstore
          obtain ⟨-, rfl⟩ := Prod.mk.inj (Option.some.inj hstore)
          exact Or.inl rfl
        | some fresh =>
          rw [hans] at hstore
          rw [ramfsStore_capacity hstore]
          exact h.loop hgrow hloop
      · rw [ramfsStore_capacity hwrite]
        exact h
  · rw [ramfsWrite, if_pos hfile] at hwrite
    obtain ⟨-, rfl⟩ := Prod.mk.inj (Option.some.inj hwrite)
    exact h

/-- **Files that have only been written to by `ramfs_write`**: writes up to 2^31 stay inside, and no
others. -/
theorem roomReached_doubled_iff {capacity : Nat} (h : Doubled capacity) (offset count : Nat) :
    RoomReached capacity offset count ↔ offset + count ≤ 2 ^ 31 := by
  obtain ⟨e, h8, h31, hfirst⟩ := h.first
  have hpow : 2 ^ e ≤ 2 ^ 31 := Nat.pow_le_pow_right (by norm_num) h31
  constructor
  · rintro ⟨-, hin | ⟨k, hk⟩⟩
    · rcases h with rfl | ⟨e', -, h31', rfl⟩
      · omega
      · exact hin.trans (Nat.pow_le_pow_right (by norm_num) h31')
    · rw [hfirst, ← pow_add, two_pow_mod] at hk
      split at hk
      · rename_i hek
        exact hk.trans (Nat.pow_le_pow_right (by norm_num) hek)
      · omega
  · intro hle
    refine ⟨by omega, Or.inr ⟨31 - e, ?_⟩⟩
    rw [hfirst, ← pow_add, Nat.add_sub_cancel' h31]
    exact hle

end JarvOs.Fs
