/-
# The tree of nodes

A tree is built by `vfs_create_node`, which makes a node that is nowhere, and `vfs_dir_add_child`, which
appends a node to the children of a directory.  Neither checks anything about the child, so the tree is
as good as its builder: here every node is added at most once and the root never (`GrowLegal`), and
`kmalloc` gives every new node an address of its own.

The invariant has the children of each directory as a list (`TreeOk`): the sibling pointers lead through
that list, each child points back to its directory, and no node is on two lists.  Detached nodes and
whatever was built from them may exist as well; `InTree` is what hangs off the root.

What the walk of a path needs from all this is in section 3: from a node of the tree, the child with a
given name and the parent are found without following a wild pointer, and the parent of a child of `d`
is `d`.
-/
import JarvOs.Lib.Chain
import JarvOs.Fs.Path
import JarvOs.Fs.Store

namespace JarvOs.Fs

open JarvOs.Lib

/-! ## 1. Building a tree -/

/-- The data of `vfs.c`, and the nodes added to a directory so far. -/
structure Grown where
  vfs : Vfs
  added : Finset NodeId

/-- One call of the builder. -/
def growStep (g : Grown) : BuildOp → Option Grown
  | .createNode addr name nodeType parent =>
    some { g with vfs := (vfsCreateNode g.vfs addr name nodeType parent).2 }
  | .addChild dir child => do
    let (r, vfs) ← vfsDirAddChild g.vfs dir child
    some ⟨vfs, if r = kernelSuccess then insert child g.added else g.added⟩

/-- New nodes get new addresses; a node is added once, and the root is not. -/
def GrowLegal (g : Grown) : BuildOp → Prop
  | .createNode addr _ _ _ => ∀ a, addr = some a → g.vfs.nodes a = none ∧ a < 2 ^ 32
  | .addChild _ child => g.vfs.root ≠ some child ∧ child ∉ g.added

/-- The state after `vfs_init`, with the root at `root`. -/
def Grown.start (root : NodeId) : Grown := ⟨(vfsInit bssVfs (some root)).2, ∅⟩

/-! ## 2. The invariant -/

/-- The sibling after `x`. -/
def Vfs.next (s : Vfs) (x : NodeId) : Option NodeId := (s.nodes x).bind VfsNode.nextSibling

/-- The children of every node, as the pointers have them. -/
structure TreeOk (g : Grown) (kids : NodeId → List NodeId) : Prop where
  root : ∃ r n, g.vfs.root = some r ∧ g.vfs.nodes r = some n ∧ n.parent = none
  rootFree : ∀ {r a}, g.vfs.root = some r → r ∉ kids a
  word : ∀ {a n}, g.vfs.nodes a = some n → a < 2 ^ 32
  absent : ∀ {a}, g.vfs.nodes a = none → kids a = []
  chain : ∀ {a n}, g.vfs.nodes a = some n → Chain g.vfs.next n.childHead (kids a)
  tail : ∀ {a n}, g.vfs.nodes a = some n → n.childTail = (kids a).getLast?
  child : ∀ {a x}, x ∈ kids a → ∃ n, g.vfs.nodes x = some n ∧ n.parent = some a
  added : ∀ {a x}, x ∈ kids a → x ∈ g.added
  apart : Exclusive kids

theorem treeOk_start {root : NodeId} (hroot : root < 2 ^ 32) :
    TreeOk (.start root) (fun _ => []) := by
  have hnodes : ∀ {a n}, (Grown.start root).vfs.nodes a = some n →
      a = root ∧ n.childHead = none ∧ n.childTail = none ∧ n.parent = none := by
    intro a n h
    rcases eq_or_ne a root with rfl | ha
    · simp only [Grown.start, vfsInit, vfsCreateNode, Function.update_self, Option.some.injEq] at h
      subst h
      exact ⟨rfl, rfl, rfl, rfl⟩
    · simp [Grown.start, vfsInit, vfsCreateNode, Function.update_of_ne ha, bssVfs] at h
  have hmade : ∃ n, (Grown.start root).vfs.nodes root = some n := ⟨_, Function.update_self ..⟩
  constructor
  case root =>
    obtain ⟨n, hn⟩ := hmade
    exact ⟨root, n, rfl, hn, (hnodes hn).2.2.2⟩
  case rootFree => exact fun _ => List.not_mem_nil
  case word =>
    intro a n h
    rw [(hnodes h).1]
    exact hroot
  case absent => exact fun _ => rfl
  case chain =>
    intro a n h
    exact (hnodes h).2.1
  case tail =>
    intro a n h
    exact (hnodes h).2.2.1
  case child => exact fun h => absurd h List.not_mem_nil
  case added => exact fun h => absurd h List.not_mem_nil
  case apart => exact ⟨fun _ => List.nodup_nil, fun h => absurd h List.not_mem_nil⟩

section Steps

variable {g : Grown} {kids : NodeId → List NodeId}

/-- A new node is on no list and has no children. -/
theorem TreeOk.createNode (h : TreeOk g kids) {a : NodeId} (hfresh : g.vfs.nodes a = none)
    (hword : a < 2 ^ 32) (name : List UInt8) (nodeType : VfsNodeType) (parent : Option NodeId) :
    TreeOk { g with vfs := (vfsCreateNode g.vfs (some a) name nodeType parent).2 } kids := by
  have hold : ∀ {b n}, g.vfs.nodes b = some n → b ≠ a := by
    rintro b n hb rfl
    exact absurd (hb.symm.trans hfresh) (by simp)
  have hkids : ∀ {b x}, x ∈ kids b → x ≠ a := by
    intro b x hx
    obtain ⟨n, hn, -⟩ := h.child hx
    exact hold hn
  have hne : ∀ {b}, b ≠ a →
      (vfsCreateNode g.vfs (some a) name nodeType parent).2.nodes b = g.vfs.nodes b :=
    fun hb => Function.update_of_ne hb _ _
  have hchain : ∀ {b n}, g.vfs.nodes b = some n →
      Chain (vfsCreateNode g.vfs (some a) name nodeType parent).2.next n.childHead (kids b) := by
    intro b n hb
    refine (h.chain hb).congr (fun x hx => ?_)
    rw [Vfs.next, hne (hkids hx), Vfs.next]
  -- the new node has no children
  have hleaf : ∀ {n}, (vfsCreateNode g.vfs (some a) name nodeType parent).2.nodes a = some n →
      n.childHead = none ∧ n.childTail = none := by
    intro n ha
    simp only [vfsCreateNode, Function.update_self, Option.some.injEq] at ha
    exact ha ▸ ⟨rfl, rfl⟩
  constructor
  case root =>
    obtain ⟨r, n, hr, hn, hp⟩ := h.root
    exact ⟨r, n, hr, (hne (hold hn)).trans hn, hp⟩
  case rootFree => exact h.rootFree
  case word =>
    intro b n hb
    rcases eq_or_ne b a with rfl | hba
    · exact hword
    · exact h.word ((hne hba).symm.trans hb)
  case absent =>
    intro b hb
    refine h.absent ?_
    rcases eq_or_ne b a with rfl | hba
    · exact hfresh
    · exact (hne hba).symm.trans hb
  case chain =>
    intro b n hb
    rcases eq_or_ne b a with rfl | hba
    · rw [h.absent hfresh, (hleaf hb).1]
      rfl
    · exact hchain ((hne hba).symm.trans hb)
  case tail =>
    intro b n hb
    rcases eq_or_ne b a with rfl | hba
    · rw [h.absent hfresh, (hleaf hb).2]
      rfl
    · exact h.tail ((hne hba).symm.trans hb)
  case child =>
    intro b x hx
    obtain ⟨n, hn, hp⟩ := h.child hx
    exact ⟨n, (hne (hold hn)).trans hn, hp⟩
  case added => exact h.added
  case apart => exact h.apart

theorem next_link_child (s : Vfs) (dir child : NodeId) (last : Option NodeId) :
    (s.link dir child last).next child = none := by
  simp only [Vfs.next, Vfs.link]
  cases s.nodes child <;> simp [linkNode]

theorem nodes_link {s : Vfs} {x : NodeId} {n : VfsNode} (hn : s.nodes x = some n)
    (dir child : NodeId) (last : Option NodeId) :
    (s.link dir child last).nodes x = some (linkNode dir child last x n) := by
  simp only [Vfs.link, hn, Option.map_some]

theorem next_link {s : Vfs} {y child : NodeId} {n : VfsNode} (hn : s.nodes y = some n)
    (hy : y ≠ child) (dir : NodeId) (last : Option NodeId) :
    (s.link dir child last).next y = if last = some y then some child else s.next y := by
  simp only [Vfs.next, nodes_link hn, hn, Option.bind_some, linkNode, if_neg hy]

/-- The lists after a node was appended to the children of `dir`. -/
theorem TreeOk.chain_link (h : TreeOk g kids) {child : NodeId} (hnot : ∀ a, child ∉ kids a)
    (dir : NodeId) {a : NodeId} {n : VfsNode} (hn : g.vfs.nodes a = some n) :
    Chain (g.vfs.link dir child (kids dir).getLast?).next
      (linkNode dir child (kids dir).getLast? a n).childHead
      (Function.update kids dir (kids dir ++ [child]) a) := by
  have hnext : ∀ {b y}, y ∈ kids b → (g.vfs.link dir child (kids dir).getLast?).next y =
      if (kids dir).getLast? = some y then some child else g.vfs.next y := by
    intro b y hy
    obtain ⟨m, hm, -⟩ := h.child hy
    have hyc : y ≠ child := fun heq => hnot b (heq ▸ hy)
    exact next_link hm hyc ..
  rcases eq_or_ne a dir with rfl | ha
  · have hconcat := (h.chain hn).concat (h.apart.nodup a) (hnot a) (fun y hy => hnext hy)
      (next_link_child ..)
    simpa [linkNode, (h.chain hn).head] using hconcat
  · -- the last child of `dir` is not a child of `a`
    have hsame := (h.chain hn).congr (fun x hx => (hnext hx).trans (if_neg fun hlast =>
      ha (h.apart.apart hx (List.mem_of_getLast? hlast))))
    simpa [linkNode, ha] using hsame

/-- A node that was never added goes to the end of one list. -/
theorem TreeOk.addChild (h : TreeOk g kids) {dir child : NodeId} {d c : VfsNode}
    (hd : g.vfs.nodes dir = some d) (hc : g.vfs.nodes child = some c)
    (hroot : g.vfs.root ≠ some child) (hnew : child ∉ g.added) :
    TreeOk ⟨g.vfs.link dir child (kids dir).getLast?, insert child g.added⟩
      (Function.update kids dir (kids dir ++ [child])) := by
  have hnot : ∀ a, child ∉ kids a := fun a hx => hnew (h.added hx)
  have hmem : ∀ {a x}, x ∈ Function.update kids dir (kids dir ++ [child]) a →
      x ∈ kids a ∨ (x = child ∧ a = dir) := mem_update_perm List.perm_append_comm
  have hnodes : ∀ {a n'}, (g.vfs.link dir child (kids dir).getLast?).nodes a = some n' →
      ∃ n, g.vfs.nodes a = some n ∧ n' = linkNode dir child (kids dir).getLast? a n := by
    intro a n' ha
    obtain ⟨n, hn, rfl⟩ := Option.map_eq_some_iff.mp ha
    exact ⟨n, hn, rfl⟩
  constructor
  case root =>
    obtain ⟨r, n, hr, hn, hp⟩ := h.root
    have hrc : r ≠ child := fun heq => hroot (heq ▸ hr)
    exact ⟨r, _, hr, nodes_link hn .., by simp [linkNode, hrc, hp]⟩
  case rootFree =>
    intro r a hr hx
    rcases hmem hx with hx | ⟨rfl, -⟩
    · exact h.rootFree hr hx
    · exact hroot hr
  case word =>
    intro a n' ha
    obtain ⟨n, hn, -⟩ := hnodes ha
    exact h.word hn
  case absent =>
    intro a ha
    have hnone : g.vfs.nodes a = none := Option.map_eq_none_iff.mp ha
    have hne : a ≠ dir := by
      rintro rfl
      exact absurd (hd.symm.trans hnone) (by simp)
    rw [Function.update_of_ne hne]
    exact h.absent hnone
  case chain =>
    intro a n' ha
    obtain ⟨n, hn, rfl⟩ := hnodes ha
    exact h.chain_link hnot dir hn
  case tail =>
    intro a n' ha
    obtain ⟨n, hn, rfl⟩ := hnodes ha
    rcases eq_or_ne a dir with rfl | hne
    · simp [linkNode]
    · simpa [linkNode, hne] using h.tail hn
  case child =>
    intro a x hx
    rcases hmem hx with hx | ⟨rfl, rfl⟩
    · obtain ⟨n, hn, hp⟩ := h.child hx
      have hxc : x ≠ child := fun heq => hnot a (heq ▸ hx)
      exact ⟨_, nodes_link hn .., by simp [linkNode, hxc, hp]⟩
    · exact ⟨_, nodes_link hc .., by simp [linkNode]⟩
  case added =>
    intro a x hx
    rcases hmem hx with hx | ⟨rfl, -⟩
    · exact Finset.mem_insert_of_mem (h.added hx)
    · exact Finset.mem_insert_self _ _
  case apart => exact h.apart.insert hnot List.perm_append_comm

end Steps

/-- **Every tree built that way** has its children in lists. -/
theorem treeOk_grown {root : NodeId} (hroot : root < 2 ^ 32) {g : Grown}
    (hg : Reach growStep GrowLegal (.start root) g) : ∃ kids, TreeOk g kids := by
  refine hg.inv (I := fun g => ∃ kids, TreeOk g kids) ⟨_, treeOk_start hroot⟩ ?_
  rintro g op g' ⟨kids, h⟩ hok hstep
  cases op with
  | createNode addr name nodeType parent =>
    cases hstep
    cases addr with
    | none => exact ⟨kids, h⟩
    | some a =>
      obtain ⟨hfresh, hword⟩ := hok a rfl
      exact ⟨kids, h.createNode hfresh hword name nodeType parent⟩
  | addChild dir child =>
    obtain ⟨⟨r, vfs⟩, hadd, hstep⟩ := Option.bind_eq_some_iff.mp hstep
    cases hstep
    rcases vfsDirAddChild_cases hadd with ⟨rfl, rfl⟩ | ⟨d, n, last, hd, hn, rfl, hlast, rfl⟩
    · exact ⟨kids, h⟩
    · -- the pointer that is tested and the one that is used belong to the same list
      have heq : last = (kids dir).getLast? := by
        rw [hlast, h.tail hd]
        split
        · rename_i hhead
          rw [(h.chain hd).head] at hhead
          rw [List.head?_eq_none_iff.mp hhead]
          rfl
        · rfl
      rw [heq]
      exact ⟨_, h.addChild hd hn hok.1 hok.2⟩

/-! ## 3. Going down and up -/

/-- `x` is on the list of children of `dir`. -/
def ChildOf (s : Vfs) (dir x : NodeId) : Prop :=
  ∃ d xs, s.nodes dir = some d ∧ Chain s.next d.childHead xs ∧ x ∈ xs

/-- `a` hangs off the root. -/
def InTree (s : Vfs) (a : NodeId) : Prop := ∃ r, s.root = some r ∧ Relation.ReflTransGen (ChildOf s) r a

/-- `strcmp` compares up to the first zero. -/
theorem strcmp_eq_zero_iff_cstr : ∀ a b : List UInt8,
    strcmp a b = 0 ↔ a.takeWhile (· ≠ 0) = b.takeWhile (· ≠ 0)
  | [], [] => by simp [strcmp]
  | [], y :: b => by simp [strcmp, ← UInt8.toNat_inj]
  | x :: a, [] => by simp [strcmp, ← UInt8.toNat_inj]
  | x :: a, y :: b => by
    by_cases hxy : x = y
    · subst hxy
      by_cases hx : x = 0
      · simp [strcmp, hx]
      · simp [strcmp, hx, strcmp_eq_zero_iff_cstr a b]
    · -- they differ here; one of them may be the terminator
      have hdiff : (x.toNat : Int) - y.toNat ≠ 0 := by
        intro h0
        exact hxy (UInt8.toNat_inj.mp (by omega))
      have hne : (x :: a).takeWhile (· ≠ 0) ≠ (y :: b).takeWhile (· ≠ 0) := by
        by_cases hx : x = 0
        · have hy : y ≠ 0 := fun h0 => hxy (hx.trans h0.symm)
          simp [hx, hy]
        · by_cases hy : y = 0
          · simp [hx, hy]
          · simp [hx, hy, hxy]
      simp only [strcmp, hxy, and_false, if_false, hdiff, hne]

/-- `strcmp(x->name, name) == 0` -/
def Vfs.named (s : Vfs) (name : List UInt8) (x : NodeId) : Bool :=
  (s.nodes x).any (fun n => strcmp n.name name = 0)

/-- **The loop over a list of children** finds the first one of that name. -/
theorem findFrom_eq {s : Vfs} (name : List UInt8) {xs : List NodeId} :
    ∀ {fuel : Nat} {head : Option NodeId}, Chain s.next head xs →
      (∀ x ∈ xs, ∃ n, s.nodes x = some n) → xs.length < fuel →
      findFrom s name fuel head = some (xs.find? (s.named name)) := by
  induction xs with
  | nil =>
    intro fuel head hchain _ hfuel
    obtain rfl : head = none := hchain
    obtain ⟨fuel, rfl⟩ : ∃ k, fuel = k + 1 := ⟨fuel - 1, by omega⟩
    rfl
  | cons x xs ih =>
    intro fuel head hchain hnodes hfuel
    obtain ⟨rfl, hrest⟩ := hchain
    obtain ⟨fuel, rfl⟩ : ∃ k, fuel = k + 1 := ⟨fuel - 1, by omega⟩
    obtain ⟨n, hn⟩ := hnodes x List.mem_cons_self
    rw [Vfs.next, hn, Option.bind_some] at hrest
    by_cases hcmp : strcmp n.name name = 0
    · simp [findFrom, Vfs.named, hn, hcmp]
    · have htail := ih hrest (fun y hy => hnodes y (List.mem_cons_of_mem _ hy))
        (Nat.lt_of_succ_lt_succ hfuel)
      simp [findFrom, Vfs.named, hn, hcmp, htail]

/-- A list of different addresses is shorter than a loop over it can be long. -/
theorem length_lt_of_words {xs : List NodeId} (hnd : xs.Nodup) (hword : ∀ x ∈ xs, x < 2 ^ 32) :
    xs.length < 2 ^ 32 + 1 := by
  have hsub : xs.toFinset ⊆ Finset.range (2 ^ 32) := fun x hx =>
    Finset.mem_range.mpr (hword x (List.mem_toFinset.mp hx))
  have hcard := Finset.card_le_card hsub
  rw [List.toFinset_card_of_nodup hnd, Finset.card_range] at hcard
  exact Nat.lt_succ_of_le hcard

section Moves

variable {g : Grown} {kids : NodeId → List NodeId} (h : TreeOk g kids)
include h

theorem TreeOk.childOf_iff {dir x : NodeId} : ChildOf g.vfs dir x ↔ x ∈ kids dir := by
  constructor
  · rintro ⟨d, xs, hd, hchain, hx⟩
    rwa [(h.chain hd).unique hchain]
  · intro hx
    rcases hd : g.vfs.nodes dir with _ | d
    · rw [h.absent hd] at hx
      cases hx
    · exact ⟨d, kids dir, hd, h.chain hd, hx⟩

/-- The node of the tree, and where its parent pointer leads. -/
theorem TreeOk.node {a : NodeId} (ha : InTree g.vfs a) :
    ∃ n, g.vfs.nodes a = some n ∧
      (g.vfs.root = some a ∧ n.parent = none ∨
        ∃ d, n.parent = some d ∧ InTree g.vfs d ∧ a ∈ kids d) := by
  obtain ⟨r, hr, hpath⟩ := ha
  rcases Relation.ReflTransGen.cases_tail hpath with rfl | ⟨d, hd, hchild⟩
  · obtain ⟨r', n, hr', hn, hp⟩ := h.root
    obtain rfl : r' = a := Option.some.inj (hr'.symm.trans hr)
    exact ⟨n, hn, Or.inl ⟨hr, hp⟩⟩
  · have hkid := h.childOf_iff.mp hchild
    obtain ⟨n, hn, hp⟩ := h.child hkid
    exact ⟨n, hn, Or.inr ⟨d, hp, ⟨r, hr, hd⟩, hkid⟩⟩

/-- **Down**: the search by name ends, with a child of the node or nothing. -/
theorem TreeOk.find {a : NodeId} (ha : InTree g.vfs a) (name : List UInt8) :
    ∃ r, vfsDirFindChild g.vfs a name = some r ∧ ∀ c, r = some c → c ∈ kids a := by
  obtain ⟨n, hn, -⟩ := h.node ha
  by_cases hty : n.nodeType = .directory
  · have hnodes : ∀ x ∈ kids a, ∃ n, g.vfs.nodes x = some n := fun x hx =>
      (h.child hx).imp fun _ hx => hx.1
    have hlen := length_lt_of_words (h.apart.nodup a) (fun x hx => (hnodes x hx).elim fun _ => h.word)
    refine ⟨(kids a).find? (g.vfs.named name), ?_, fun c hc => List.mem_of_find?_eq_some hc⟩
    rw [← findFrom_eq name (h.chain hn) hnodes hlen]
    simp [vfsDirFindChild, hn, hty]
  · exact ⟨none, by simp [vfsDirFindChild, hn, hty], by simp⟩

/-- A child of a node of the tree is in the tree. -/
theorem TreeOk.inTree_child {a c : NodeId} (ha : InTree g.vfs a) (hc : c ∈ kids a) : InTree g.vfs c := by
  obtain ⟨r, hr, hpath⟩ := ha
  exact ⟨r, hr, hpath.tail (h.childOf_iff.mpr hc)⟩

end Moves

end JarvOs.Fs
