/-
# Lists of children (`kernel/fs/vfs.c`)

`vfs_dir_add_child` appends a node to the children of a directory and `vfs_dir_remove_child` takes one
out again.  The children of all directories share two link fields, and what they hold in a node that is
in no directory is not said anywhere: a node comes from `vfs_create_node` with NULL in them, from
`vfs_dir_remove_child` with NULL, or from some other past.  Nothing here depends on it, since both
fields are written when the node is added.

What the two functions are FOR is `kidsStep`: for each directory, the nodes added and not removed, in
the order of addition.  `children_well_formed` says that the pointers represent these lists, forwards and
backwards, after any calls whose callers add a node only while it is in no directory and remove it only
from the directory it is in (`ChildLegal`).  A directory may be among its own descendants, or be its own
child; for the lists that makes no difference.
-/
import JarvOs.Fs.Tree

namespace JarvOs.Fs

open JarvOs.Lib

/-! ## 1. Calls, and what they are for -/

/-- A call. -/
inductive ChildOp
  | add (dir child : NodeId)
  | remove (dir child : NodeId)
deriving DecidableEq, Repr

def childStep (s : Vfs) : ChildOp → Option Vfs
  | .add dir child => (vfsDirAddChild s dir child).map Prod.snd
  | .remove dir child => vfsDirRemoveChild s dir child

/-- For every directory, what was added and not removed, in order of addition. -/
def kidsStep (kids : NodeId → List NodeId) : ChildOp → NodeId → List NodeId
  | .add dir child => Function.update kids dir (kids dir ++ [child])
  | .remove dir child => Function.update kids dir ((kids dir).erase child)

def Vfs.IsDirectory (s : Vfs) (a : NodeId) : Prop :=
  ∃ n, s.nodes a = some n ∧ n.nodeType = .directory

/-- A node in no directory is added, a child of the directory is removed. -/
def ChildLegal (s₀ : Vfs) (kids : NodeId → List NodeId) : ChildOp → Prop
  | .add dir child => s₀.IsDirectory dir ∧ (s₀.nodes child).isSome ∧ ∀ a, child ∉ kids a
  | .remove dir child => child ∈ kids dir

/-- The name of `x`, up to the first zero, is `name`. -/
def Vfs.hasName (s : Vfs) (name : CString) (x : NodeId) : Bool :=
  (s.nodes x).map (fun n => n.name.takeWhile (· ≠ 0)) = some name.bytes

/-! ## 2. What the calls do to every node -/

/-- Every node rewritten. -/
def Vfs.edit (s : Vfs) (f : NodeId → VfsNode → VfsNode) : Vfs :=
  { s with nodes := fun x => (s.nodes x).map (f x) }

section Edit

variable {s : Vfs} {f : NodeId → VfsNode → VfsNode} {x : NodeId} {n : VfsNode}

theorem isSome_edit : ((s.edit f).nodes x).isSome = (s.nodes x).isSome := Option.isSome_map

theorem nodes_edit (hn : s.nodes x = some n) : (s.edit f).nodes x = some (f x n) := by
  simp only [Vfs.edit, hn, Option.map_some]

theorem nodes_edit_inv {n' : VfsNode} (h : (s.edit f).nodes x = some n') :
    ∃ n, s.nodes x = some n ∧ n' = f x n := by
  obtain ⟨n, hn, rfl⟩ := Option.map_eq_some_iff.mp h
  exact ⟨n, hn, rfl⟩

theorem edit_edit (s : Vfs) (f g : NodeId → VfsNode → VfsNode) :
    (s.edit f).edit g = s.edit (fun x n => g x (f x n)) := by
  simp only [Vfs.edit, Option.map_map, Function.comp_def]

theorem modifyNode_edit {a : NodeId} (h : (s.nodes a).isSome) (f : VfsNode → VfsNode) :
    s.modifyNode a f = some (s.edit (fun x n => if x = a then f n else n)) := by
  obtain ⟨n, hn⟩ := Option.isSome_iff_exists.mp h
  have hsome : s.modifyNode a f =
      some { s with nodes := Function.update s.nodes a (some (f n)) } := by
    rw [Vfs.modifyNode, hn, Option.map_some]
  rw [hsome, (modifyNode_eq hsome).2, Vfs.edit]

end Edit

/-- `vfs_dir_add_child`, for a directory whose first child is there if its last one is. -/
theorem vfsDirAddChild_eq {s : Vfs} {dir child : NodeId} {d : VfsNode} (hd : s.nodes dir = some d)
    (hdir : d.nodeType = .directory) (hc : (s.nodes child).isSome)
    (hends : d.childHead = none ↔ d.childTail = none)
    (htail : ∀ t, d.childTail = some t → (s.nodes t).isSome) :
    vfsDirAddChild s dir child = some (kernelSuccess, s.link dir child d.childTail) := by
  rcases hlast : d.childTail with _ | t
  · have hhead := hends.mpr hlast
    simp only [vfsDirAddChild, hd, hdir, ne_eq, not_true, if_false, hhead, Option.bind_eq_bind,
      Option.bind_some, modifyNode_edit, isSome_edit, Option.isSome_some, hc, edit_edit,
      Option.some.injEq, Prod.mk.injEq, true_and]
    exact congrArg s.edit (funext fun x => funext fun n => linkNode_first dir child x n)
  · obtain ⟨first, hhead⟩ : ∃ first, d.childHead = some first :=
      Option.ne_none_iff_exists'.mp (fun h0 => by simp [hends.mp h0] at hlast)
    simp only [vfsDirAddChild, hd, hdir, ne_eq, not_true, if_false, hhead, hlast,
      Option.bind_eq_bind, Option.bind_some, modifyNode_edit, isSome_edit, Option.isSome_some, hc,
      htail t hlast, edit_edit, Option.some.injEq, Prod.mk.injEq, true_and]
    exact congrArg s.edit (funext fun x => funext fun n => linkNode_later dir child t x n)

/-- Node `x` after `child`, with `before` and `after` on either side of it, was taken out of `dir`. -/
def unlinkNode (dir child : NodeId) (before after : Option NodeId) (x : NodeId) (n : VfsNode) :
    VfsNode :=
  { n with
    parent := if x = child then none else n.parent
    childHead := if x = dir ∧ before = none then after else n.childHead
    childTail := if x = dir ∧ after = none then before else n.childTail
    nextSibling := if x = child then none else if before = some x then after else n.nextSibling
    prevSibling := if x = child then none else if after = some x then before else n.prevSibling }

/-- The first write of `vfs_dir_remove_child`, as it meets node `x`. -/
def bypassNextNode (dir : NodeId) (before after : Option NodeId) (x : NodeId) (n : VfsNode) : VfsNode :=
  { n with
    childHead := if x = dir ∧ before = none then after else n.childHead
    nextSibling := if before = some x then after else n.nextSibling }

/-- The second. -/
def bypassPrevNode (dir : NodeId) (before after : Option NodeId) (x : NodeId) (n : VfsNode) : VfsNode :=
  { n with
    childTail := if x = dir ∧ after = none then before else n.childTail
    prevSibling := if after = some x then before else n.prevSibling }

section Bypass

variable {s : Vfs} {dir : NodeId} {c : VfsNode}

theorem bypassNext_eq (hdir : (s.nodes dir).isSome)
    (hbefore : ∀ t, c.prevSibling = some t → (s.nodes t).isSome) :
    bypassNext s dir c = some (s.edit (bypassNextNode dir c.prevSibling c.nextSibling)) := by
  rcases hprev : c.prevSibling with _ | t
  · simp only [bypassNext, hprev, modifyNode_edit hdir]
    congr 2
    funext x n
    rcases eq_or_ne x dir with rfl | hx
    · simp [bypassNextNode]
    · simp [bypassNextNode, hx]
  · simp only [bypassNext, hprev, modifyNode_edit (hbefore t hprev)]
    congr 2
    funext x n
    rcases eq_or_ne x t with rfl | hx
    · simp [bypassNextNode]
    · simp [bypassNextNode, hx, hx.symm]

theorem bypassPrev_eq (hdir : (s.nodes dir).isSome)
    (hafter : ∀ t, c.nextSibling = some t → (s.nodes t).isSome) :
    bypassPrev s dir c = some (s.edit (bypassPrevNode dir c.prevSibling c.nextSibling)) := by
  rcases hnext : c.nextSibling with _ | t
  · simp only [bypassPrev, hnext, modifyNode_edit hdir]
    congr 2
    funext x n
    rcases eq_or_ne x dir with rfl | hx
    · simp [bypassPrevNode]
    · simp [bypassPrevNode, hx]
  · simp only [bypassPrev, hnext, modifyNode_edit (hafter t hnext)]
    congr 2
    funext x n
    rcases eq_or_ne x t with rfl | hx
    · simp [bypassPrevNode]
    · simp [bypassPrevNode, hx, hx.symm]

end Bypass

/-- All nodes after that. -/
def Vfs.unlink (s : Vfs) (dir child : NodeId) (before after : Option NodeId) : Vfs :=
  s.edit (unlinkNode dir child before after)

/-- `vfs_dir_remove_child`, for a child that is not its own neighbour. -/
theorem vfsDirRemoveChild_eq {s : Vfs} {dir child : NodeId} {d c : VfsNode}
    (hd : s.nodes dir = some d) (hdir : d.nodeType = .directory) (hc : s.nodes child = some c)
    (hbefore : ∀ t, c.prevSibling = some t → (s.nodes t).isSome ∧ t ≠ child)
    (hafter : ∀ t, c.nextSibling = some t → (s.nodes t).isSome) :
    vfsDirRemoveChild s dir child = some (s.unlink dir child c.prevSibling c.nextSibling) := by
  have hdsome : (s.nodes dir).isSome := by rw [hd]; rfl
  have hcsome : (s.nodes child).isSome := by rw [hc]; rfl
  have hself : c.prevSibling ≠ some child := fun h0 => (hbefore child h0).2 rfl
  have hfirst := bypassNext_eq (c := c) hdsome (fun t ht => (hbefore t ht).1)
  -- the first write leaves the sibling pointers of the child alone
  have hread := nodes_edit (f := bypassNextNode dir c.prevSibling c.nextSibling) hc
  have hnext : (bypassNextNode dir c.prevSibling c.nextSibling child c).nextSibling =
      c.nextSibling := by simp [bypassNextNode, hself]
  have hprev : (bypassNextNode dir c.prevSibling c.nextSibling child c).prevSibling =
      c.prevSibling := rfl
  have hsecond := bypassPrev_eq (s := s.edit (bypassNextNode dir c.prevSibling c.nextSibling))
    (c := bypassNextNode dir c.prevSibling c.nextSibling child c) (isSome_edit.trans hdsome)
    (fun t ht => isSome_edit.trans (hafter t (hnext ▸ ht)))
  rw [hnext, hprev] at hsecond
  simp only [vfsDirRemoveChild, hd, hdir, ne_eq, not_true, if_false, hc, Option.bind_eq_bind,
    Option.bind_some, hfirst, hread, hsecond, edit_edit]
  rw [modifyNode_edit (isSome_edit.trans hcsome), edit_edit]
  congr 2
  funext x n
  by_cases hx : x = child <;> simp [bypassNextNode, bypassPrevNode, unlinkNode, hx]

/-! ## 3. The lists -/

/-- The sibling before `x`. -/
def Vfs.prev (s : Vfs) (x : NodeId) : Option NodeId := (s.nodes x).bind VfsNode.prevSibling

/-- Type and name of a node, which no call changes. -/
def Vfs.label (s : Vfs) (x : NodeId) : Option (VfsNodeType × List UInt8) :=
  (s.nodes x).map (fun n => (n.nodeType, n.name))

/-- The pointers represent the lists `kids`, in a state that has the nodes of `s₀`. -/
structure ChildrenOk (s₀ s : Vfs) (kids : NodeId → List NodeId) : Prop where
  label : s.label = s₀.label
  linked : ∀ {a n}, s.nodes a = some n → n.nodeType = .directory →
    Linked s.next s.prev n.childHead n.childTail (kids a)
  child : ∀ {a x}, x ∈ kids a → ∃ n, s.nodes x = some n ∧ n.parent = some a
  home : ∀ {a x}, x ∈ kids a → s.IsDirectory a
  apart : Exclusive kids

section Labels

variable {s s' : Vfs} {f : NodeId → VfsNode → VfsNode} {a x : NodeId} {n : VfsNode}

theorem next_of (hn : s.nodes x = some n) : s.next x = n.nextSibling := by
  rw [Vfs.next, hn, Option.bind_some]

theorem prev_of (hn : s.nodes x = some n) : s.prev x = n.prevSibling := by
  rw [Vfs.prev, hn, Option.bind_some]

theorem label_edit (hf : ∀ x n, (f x n).nodeType = n.nodeType ∧ (f x n).name = n.name) :
    (s.edit f).label = s.label := by
  funext x
  simp only [Vfs.label, Vfs.edit, Option.map_map, Function.comp_def, hf]

theorem label_link (s : Vfs) (dir child : NodeId) (last : Option NodeId) :
    (s.link dir child last).label = s.label :=
  label_edit (f := linkNode dir child last) (fun _ _ => ⟨rfl, rfl⟩)

theorem label_unlink (s : Vfs) (dir child : NodeId) (before after : Option NodeId) :
    (s.unlink dir child before after).label = s.label :=
  label_edit (f := unlinkNode dir child before after) (fun _ _ => ⟨rfl, rfl⟩)

theorem isSome_of_label (h : s.label = s'.label) : (s.nodes a).isSome = (s'.nodes a).isSome := by
  have ha := congrArg Option.isSome (congrFun h a)
  rwa [Vfs.label, Vfs.label, Option.isSome_map, Option.isSome_map] at ha

theorem isDirectory_of_label (h : s.label = s'.label) : s.IsDirectory a ↔ s'.IsDirectory a := by
  have hiff : ∀ t : Vfs, t.IsDirectory a ↔ ∃ name, t.label a = some (.directory, name) := by
    intro t
    simp only [Vfs.IsDirectory, Vfs.label, Option.map_eq_some_iff, Prod.mk.injEq]
    constructor
    · rintro ⟨n, hn, hty⟩
      exact ⟨n.name, n, hn, hty, rfl⟩
    · rintro ⟨-, n, hn, hty, -⟩
      exact ⟨n, hn, hty⟩
  rw [hiff, hiff, h]

end Labels

section Steps

variable {s₀ s : Vfs} {kids : NodeId → List NodeId} {dir child : NodeId} {d c : VfsNode}

/-- At first all directories are empty. -/
theorem childrenOk_start (hempty : ∀ a n, s₀.nodes a = some n → n.nodeType = .directory →
    n.childHead = none ∧ n.childTail = none) : ChildrenOk s₀ s₀ (fun _ => []) where
  label := rfl
  linked hn hty := ⟨(hempty _ _ hn hty).1, (hempty _ _ hn hty).2⟩
  child hx := absurd hx List.not_mem_nil
  home hx := absurd hx List.not_mem_nil
  apart := ⟨fun _ => List.nodup_nil, fun hx => absurd hx List.not_mem_nil⟩

theorem mem_kids_add {a x : NodeId} (hx : x ∈ kidsStep kids (.add dir child) a) :
    x ∈ kids a ∨ (x = child ∧ a = dir) := mem_update_perm List.perm_append_comm hx

/-- **Adding** a node that is in no directory. -/
theorem ChildrenOk.add (h : ChildrenOk s₀ s kids) (hd : s.nodes dir = some d)
    (hdir : d.nodeType = .directory) (hc : s.nodes child = some c) (hnot : ∀ a, child ∉ kids a) :
    ChildrenOk s₀ (s.link dir child d.childTail) (kidsStep kids (.add dir child)) := by
  have hL := h.linked hd hdir
  have hnext : ∀ {a y}, y ∈ kids a → (s.link dir child d.childTail).next y =
      if d.childTail = some y then some child else s.next y := by
    intro a y hy
    obtain ⟨n, hn, -⟩ := h.child hy
    have hyc : y ≠ child := fun heq => hnot a (heq ▸ hy)
    exact next_link hn hyc ..
  have hprev : ∀ {a y}, y ∈ kids a → (s.link dir child d.childTail).prev y = s.prev y := by
    intro a y hy
    obtain ⟨n, hn, -⟩ := h.child hy
    have hyc : y ≠ child := fun heq => hnot a (heq ▸ hy)
    rw [prev_of (nodes_link hn ..), prev_of hn]
    simp [linkNode, hyc]
  have hprevc : (s.link dir child d.childTail).prev child = d.childTail := by
    rw [prev_of (nodes_link hc ..)]
    simp [linkNode]
  constructor
  case label => rw [label_link, h.label]
  case linked =>
    intro a n' ha hty
    obtain ⟨n, hn, rfl⟩ := nodes_edit_inv ha
    rcases eq_or_ne a dir with rfl | hne
    · obtain rfl : n = d := Option.some.inj (hn.symm.trans hd)
      have hsnoc := hL.snoc (h.apart.nodup a) (hnot a) (fun y hy => hnext hy) (next_link_child ..)
        (fun y hy => hprev hy) hprevc
      simpa [kidsStep, linkNode, hL.ends_iff] using hsnoc
    · -- the last child of `dir` is not a child of `a`
      have hlast : ∀ x ∈ kids a, d.childTail ≠ some x := fun x hx hlast =>
        hne (h.apart.apart hx (List.mem_of_getLast? (hL.tail_eq.symm.trans hlast)))
      have hsame := (h.linked hn hty).congr
        (fun x hx => (hnext hx).trans (if_neg (hlast x hx))) (fun x hx => hprev hx)
      simpa [kidsStep, linkNode, hne] using hsame
  case child =>
    intro a x hx
    rcases mem_kids_add hx with hx | ⟨rfl, rfl⟩
    · obtain ⟨n, hn, hp⟩ := h.child hx
      have hxc : x ≠ child := fun heq => hnot a (heq ▸ hx)
      exact ⟨_, nodes_link hn .., by simp [linkNode, hxc, hp]⟩
    · exact ⟨_, nodes_link hc .., by simp [linkNode]⟩
  case home =>
    intro a x hx
    rw [isDirectory_of_label (label_link ..)]
    rcases mem_kids_add hx with hx | ⟨-, rfl⟩
    · exact h.home hx
    · exact ⟨d, hd, hdir⟩
  case apart => exact h.apart.insert hnot List.perm_append_comm

theorem mem_kids_remove (hex : Exclusive kids) {a x : NodeId}
    (hx : x ∈ kidsStep kids (.remove dir child) a) : x ∈ kids a ∧ (a = dir → x ≠ child) := by
  refine ⟨mem_update_sublist List.erase_sublist hx, ?_⟩
  rintro rfl rfl
  rw [kidsStep, Function.update_self] at hx
  exact ((hex.nodup a).mem_erase_iff.mp hx).1 rfl

/-- What is left of a list when `x` is taken out of its middle. -/
theorem mem_of_middle {pre post : List NodeId} {x y : NodeId} (hnd : (pre ++ x :: post).Nodup)
    (hy : y ∈ pre ++ post) : y ∈ pre ++ x :: post ∧ y ≠ x := by
  have hx : x ∉ pre ++ post := (List.nodup_cons.mp (List.nodup_middle.mp hnd)).1
  exact ⟨List.perm_middle.mem_iff.mpr (List.mem_cons_of_mem x hy), fun heq => hx (heq ▸ hy)⟩

theorem erase_middle {pre post : List NodeId} {x : NodeId} (hnd : (pre ++ x :: post).Nodup) :
    (pre ++ x :: post).erase x = pre ++ post := by
  have hpre : x ∉ pre := fun hx => (mem_of_middle hnd (List.mem_append_left post hx)).2 rfl
  rw [List.erase_append_right _ hpre, List.erase_cons_head]

/-- The siblings of a child are children. -/
theorem ChildrenOk.siblings (h : ChildrenOk s₀ s kids) (hd : s.nodes dir = some d)
    (hdir : d.nodeType = .directory) (hc : s.nodes child = some c) (hmem : child ∈ kids dir) :
    (∀ t, c.prevSibling = some t → t ∈ kids dir ∧ t ≠ child) ∧
      ∀ t, c.nextSibling = some t → t ∈ kids dir ∧ t ≠ child := by
  have hnd := h.apart.nodup dir
  have hL := h.linked hd hdir
  obtain ⟨pre, post, hsplit⟩ := List.append_of_mem hmem
  rw [hsplit] at hnd hL ⊢
  rw [← prev_of hc, ← next_of hc, hL.prev_eq, hL.next_eq]
  constructor
  · intro t ht
    exact mem_of_middle hnd (List.mem_append_left _ (List.mem_of_getLast? ht))
  · intro t ht
    exact mem_of_middle hnd (List.mem_append_right _ (List.mem_of_head? ht))

/-- **Removing** a child. -/
theorem ChildrenOk.remove (h : ChildrenOk s₀ s kids) (hd : s.nodes dir = some d)
    (hdir : d.nodeType = .directory) (hc : s.nodes child = some c) (hmem : child ∈ kids dir) :
    ChildrenOk s₀ (s.unlink dir child c.prevSibling c.nextSibling)
      (kidsStep kids (.remove dir child)) := by
  obtain ⟨hbefore, hafter⟩ := h.siblings hd hdir hc hmem
  have hne : ∀ {a y}, y ∈ kids a → (a = dir → y ≠ child) → y ≠ child := fun {a y} hy hyc heq =>
    hyc (h.apart.apart hy (heq ▸ hmem)) heq
  have hnext : ∀ {a y}, y ∈ kids a → y ≠ child →
      (s.unlink dir child c.prevSibling c.nextSibling).next y =
        if s.prev child = some y then s.next child else s.next y := by
    intro a y hy hyc
    obtain ⟨n, hn, -⟩ := h.child hy
    rw [Vfs.unlink, next_of (nodes_edit hn), next_of hn, next_of hc, prev_of hc]
    simp [unlinkNode, hyc]
  have hprev : ∀ {a y}, y ∈ kids a → y ≠ child →
      (s.unlink dir child c.prevSibling c.nextSibling).prev y =
        if s.next child = some y then s.prev child else s.prev y := by
    intro a y hy hyc
    obtain ⟨n, hn, -⟩ := h.child hy
    rw [Vfs.unlink, prev_of (nodes_edit hn), prev_of hn, next_of hc, prev_of hc]
    simp [unlinkNode, hyc]
  constructor
  case label => rw [label_unlink, h.label]
  case linked =>
    intro a n' ha hty
    obtain ⟨n, hn, rfl⟩ := nodes_edit_inv ha
    rcases eq_or_ne a dir with rfl | had
    · obtain rfl : n = d := Option.some.inj (hn.symm.trans hd)
      have hL := h.linked hn hty
      have hnd := h.apart.nodup a
      obtain ⟨pre, post, hsplit⟩ := List.append_of_mem hmem
      rw [hsplit] at hL hnd
      have hrest : ∀ y ∈ pre ++ post, y ∈ kids a ∧ y ≠ child := fun y hy => by
        rw [hsplit]
        exact mem_of_middle hnd hy
      have hout := hL.remove hnd (fun y hy => hnext (hrest y hy).1 (hrest y hy).2)
        (fun y hy => hprev (hrest y hy).1 (hrest y hy).2)
      rw [next_of hc, prev_of hc] at hout
      simpa [kidsStep, hsplit, erase_middle hnd, unlinkNode] using hout
    · -- no sibling of the child is a child of `a`
      have hyc : ∀ y ∈ kids a, y ≠ child := fun y hy => hne hy (fun heq => absurd heq had)
      have hsame := (h.linked hn hty).congr
        (fun y hy => (hnext hy (hyc y hy)).trans (if_neg fun hs =>
          had (h.apart.apart hy (hbefore y ((prev_of hc).symm.trans hs)).1)))
        (fun y hy => (hprev hy (hyc y hy)).trans (if_neg fun hs =>
          had (h.apart.apart hy (hafter y ((next_of hc).symm.trans hs)).1)))
      simpa [kidsStep, unlinkNode, had] using hsame
  case child =>
    intro a x hx
    obtain ⟨hx, hxc⟩ := mem_kids_remove h.apart hx
    obtain ⟨n, hn, hp⟩ := h.child hx
    exact ⟨_, nodes_edit hn, by simp [unlinkNode, hne hx hxc, hp]⟩
  case home =>
    intro a x hx
    rw [isDirectory_of_label (label_unlink ..)]
    exact h.home (mem_kids_remove h.apart hx).1
  case apart => exact h.apart.shrink List.erase_sublist

/-- **One call** is survived and does to the lists what it is for. -/
theorem childStep_ok (h : ChildrenOk s₀ s kids) {op : ChildOp} (hok : ChildLegal s₀ kids op) :
    ∃ s', childStep s op = some s' ∧ ChildrenOk s₀ s' (kidsStep kids op) := by
  have hnode : ∀ {a x}, x ∈ kids a → (s.nodes x).isSome := fun hx => by
    obtain ⟨n, hn, -⟩ := h.child hx
    rw [hn]
    rfl
  cases op with
  | add dir child =>
    obtain ⟨hdir, hc, hnot⟩ := hok
    obtain ⟨d, hd, hty⟩ := (isDirectory_of_label h.label).mpr hdir
    have hcsome : (s.nodes child).isSome := (isSome_of_label h.label).trans hc
    obtain ⟨c, hc⟩ := Option.isSome_iff_exists.mp hcsome
    have hL := h.linked hd hty
    have hcall := vfsDirAddChild_eq hd hty hcsome hL.ends_iff
      (fun t ht => hnode (List.mem_of_getLast? (hL.tail_eq.symm.trans ht)))
    exact ⟨_, by rw [childStep, hcall, Option.map_some], h.add hd hty hc hnot⟩
  | remove dir child =>
    have hmem : child ∈ kids dir := hok
    obtain ⟨d, hd, hty⟩ := h.home hmem
    obtain ⟨c, hc, -⟩ := h.child hmem
    obtain ⟨hbefore, hafter⟩ := h.siblings hd hty hc hmem
    have hcall := vfsDirRemoveChild_eq hd hty hc
      (fun t ht => ⟨hnode (hbefore t ht).1, (hbefore t ht).2⟩) (fun t ht => hnode (hafter t ht).1)
    exact ⟨_, hcall, h.remove hd hty hc hmem⟩

end Steps

/-! ## 4. Any calls -/

theorem hasName_eq_named (s : Vfs) (name : CString) : s.hasName name = s.named name.bytes := by
  have hname : name.bytes.takeWhile (· ≠ 0) = name.bytes :=
    List.takeWhile_eq_self_iff.mpr (fun x hx => decide_eq_true fun h0 => name.noNul (h0 ▸ hx))
  funext x
  rcases hx : s.nodes x with _ | n
  · simp [Vfs.hasName, Vfs.named, hx]
  · simp only [Vfs.hasName, Vfs.named, hx, Option.map_some, Option.any_some, Option.some.injEq,
      strcmp_eq_zero_iff_cstr, hname]

/-- **Finding**: the first child of that name. -/
theorem ChildrenOk.find {s₀ s : Vfs} {kids : NodeId → List NodeId} (h : ChildrenOk s₀ s kids)
    (hword : ∀ a n, s₀.nodes a = some n → a < 2 ^ 32) {dir : NodeId} {d : VfsNode}
    (hd : s.nodes dir = some d) (hdir : d.nodeType = .directory) (name : CString) :
    vfsDirFindChild s dir name.bytes = some ((kids dir).find? (s.hasName name)) := by
  have hnodes : ∀ x ∈ kids dir, ∃ n, s.nodes x = some n := fun x hx =>
    (h.child hx).imp fun _ hx => hx.1
  have hlen := length_lt_of_words (h.apart.nodup dir) (fun x hx => by
    obtain ⟨n, hn⟩ := hnodes x hx
    have hsome : (s₀.nodes x).isSome := (isSome_of_label h.label).symm.trans (by rw [hn]; rfl)
    obtain ⟨n₀, hn₀⟩ := Option.isSome_iff_exists.mp hsome
    exact hword x n₀ hn₀)
  rw [hasName_eq_named, ← findFrom_eq name.bytes (h.linked hd hdir).forward hnodes hlen]
  simp [vfsDirFindChild, hd, hdir]

/-- **The lists of children stay well formed.**  From any nodes whose directories are empty, every
sequence of calls that add nodes in no directory and remove children from their directory returns.
Then, for every directory, the pointers are those of the list of nodes added and not removed, in order
of addition, in both directions; the parent of each of them is the directory; the search by name finds
the first of that name, or NULL if there is none; and no node is on two lists or twice on one. -/
theorem children_well_formed (s₀ : Vfs) (hword : ∀ a n, s₀.nodes a = some n → a < 2 ^ 32)
    (hempty : ∀ a n, s₀.nodes a = some n → n.nodeType = .directory →
      n.childHead = none ∧ n.childTail = none)
    (ops : List ChildOp)
    (hlegal : Along (fun kids op => some (kidsStep kids op)) (ChildLegal s₀) (fun _ => []) ops) :
    ∃ s, run childStep s₀ ops = some s ∧
      (∀ dir d, s.nodes dir = some d → d.nodeType = .directory →
        Linked s.next s.prev d.childHead d.childTail (ops.foldl kidsStep (fun _ => []) dir) ∧
        (∀ x ∈ ops.foldl kidsStep (fun _ => []) dir, ∃ n, s.nodes x = some n ∧ n.parent = some dir) ∧
        ∀ name : CString, vfsDirFindChild s dir name.bytes =
          some ((ops.foldl kidsStep (fun _ => []) dir).find? (s.hasName name))) ∧
      Exclusive (ops.foldl kidsStep (fun _ => [])) := by
  have hstep : ∀ s kids op, ChildrenOk s₀ s kids → ChildLegal s₀ kids op →
      ∃ s', childStep s op = some s' ∧ ChildrenOk s₀ s' (kidsStep kids op) :=
    fun _ _ _ h hop => childStep_ok h hop
  obtain ⟨s, hrun, hok⟩ := run_refine hstep ops s₀ _ (childrenOk_start hempty) hlegal
  exact ⟨s, hrun, fun dir d hd hdir => ⟨hok.linked hd hdir, fun x hx => hok.child hx,
    hok.find hword hd hdir⟩, hok.apart⟩

/-- A node with pointers from some other past. -/
def strayNode (nodeType : VfsNodeType) (name : List UInt8) : VfsNode :=
  ⟨nodeType, name, none, some 9, none, none, some 7, some 8⟩

/-- Two directories, 1 and 2, and two files. -/
def twoDirs : Vfs where
  nodes a := if a = 1 ∨ a = 2 then some (strayNode .directory [0x64])
    else if a = 3 ∨ a = 4 then some (strayNode .file [0x66]) else none
  root := some 1
  cwd := some 1
  fdTable _ := closedFd

/-- A file that was in front of another one moves to the second directory. -/
theorem children_well_formed_moved : ∃ s d,
    run childStep twoDirs [.add 1 3, .add 1 4, .remove 1 3, .add 2 3] = some s ∧
      s.nodes 1 = some d ∧ Linked s.next s.prev d.childHead d.childTail [4] ∧
      vfsDirFindChild s 1 [0x66] = some (some 4) := by
  have hnodes : ∀ a n, twoDirs.nodes a = some n →
      a < 5 ∧ n.childHead = none ∧ n.childTail = none := by
    intro a n h
    simp only [twoDirs] at h
    split_ifs at h with hdir hfile
    · cases h
      rcases hdir with rfl | rfl <;> exact ⟨by decide, rfl, rfl⟩
    · cases h
      rcases hfile with rfl | rfl <;> exact ⟨by decide, rfl, rfl⟩
  have hlegal : Along (fun kids op => some (kidsStep kids op)) (ChildLegal twoDirs) (fun _ => [])
      [.add 1 3, .add 1 4, .remove 1 3, .add 2 3] := by
    simp only [Along, ChildLegal, kidsStep, Vfs.IsDirectory, twoDirs, Option.some.injEq, forall_eq']
    simp [strayNode, Function.update_apply]
    intro a
    split_ifs <;> simp
  obtain ⟨s, hrun, hall, -⟩ := children_well_formed twoDirs
    (fun a n h => lt_trans (hnodes a n h).1 (by decide)) (fun a n h _ => (hnodes a n h).2) _ hlegal
  have hdir : ((run childStep twoDirs [.add 1 3, .add 1 4, .remove 1 3, .add 2 3]).bind
      (fun s => s.nodes 1)).map VfsNode.nodeType = some .directory := rfl
  rw [hrun, Option.bind_some] at hdir
  obtain ⟨d, hd, hty⟩ := Option.map_eq_some_iff.mp hdir
  obtain ⟨hlinked, -, hfind⟩ := hall 1 d hd hty
  have hname : ((run childStep twoDirs [.add 1 3, .add 1 4, .remove 1 3, .add 2 3]).map
      (fun s => s.hasName ⟨[0x66], by decide⟩ 4)) = some true := rfl
  rw [hrun, Option.map_some, Option.some.injEq] at hname
  refine ⟨s, d, hrun, hd, hlinked, ?_⟩
  rw [hfind ⟨[0x66], by decide⟩]
  simp [kidsStep, hname]

end JarvOs.Fs
