/-
# When two paths name the same node

`resolve_path` starts at the root or the working directory and makes one move per token.  What it ends
at depends on the path only through where it starts and its COMPONENTS, the pieces between slashes
without the empty ones and `.`; and `..` undoes a step to a child, because the children of a directory
point back to it.  At the root there is no parent and `..` stays.

`PathLaws` puts this as laws about path strings; `path_laws` proves them for every tree that is built by
adding each node once, from any working directory in it.  The laws include that the calls return: no
lookup follows a wild pointer or loops.

Whether there is memory for the copy of a path is up to the allocator and not to the path.  `ResolvesTo`
speaks of the calls that get it.
-/
import JarvOs.Fs.Tree

namespace JarvOs.Fs

open JarvOs.Lib

/-! ## 1. The laws -/

/-- The pieces of a path between slashes, without the empty ones and `.`. -/
def CString.components (path : CString) : List (List UInt8) :=
  (path.bytes.splitOn slash).filter (fun c => c ≠ [] ∧ c ≠ dot)

theorem join_noNul (q x : CString) : 0 ∉ q.bytes ++ slash :: x.bytes := by
  simp [q.noNul, x.noNul, slash]

/-- `q/x` -/
def CString.join (q x : CString) : CString := ⟨q.bytes ++ slash :: x.bytes, join_noNul q x⟩

theorem dotdot_noNul : 0 ∉ dotdot := by decide

/-- `..` as a path. -/
def upPath : CString := ⟨dotdot, dotdot_noNul⟩

/-- A component that names a child: not empty, without slashes, neither `.` nor `..`. -/
structure CString.IsName (x : CString) : Prop where
  ne_nil : x.bytes ≠ []
  noSlash : slash ∉ x.bytes
  ne_dot : x.bytes ≠ dot
  ne_dotdot : x.bytes ≠ dotdot

/-- `resolve_path` of the path returns `node` (`none` is NULL, for a path that does not resolve),
provided the path could be copied. -/
def ResolvesTo (s : Vfs) (path : CString) (node : Option NodeId) : Prop :=
  ∀ copy, copy ≠ 0 → ∃ calls, resolvePath s (some path) copy = some (node, calls)

/-- **The laws of paths.** -/
structure PathLaws (s : Vfs) : Prop where
  /-- Only the components count. -/
  same : ∀ p p' : CString, (p.Absolute ↔ p'.Absolute) → p.components = p'.components →
    ∃ node, ResolvesTo s p node ∧ ResolvesTo s p' node
  /-- A step to a child and back: `q/x/..` is `q`. -/
  up : ∀ q x : CString, q.bytes ≠ [] → x.IsName → ∀ a, ResolvesTo s (q.join x) (some a) →
    ∃ d, ResolvesTo s q (some d) ∧ ResolvesTo s ((q.join x).join upPath) (some d)
  /-- At the root, `..` stays. -/
  top : ∀ r, s.root = some r →
    (∀ p, ResolvesTo s p (some r) → ResolvesTo s (p.join upPath) (some r)) ∧
      (s.cwd = some r → ResolvesTo s upPath (some r))

/-! ## 2. The walk -/

theorem strcmp_eq_zero_iff {a b : List UInt8} (ha : 0 ∉ a) (hb : 0 ∉ b) : strcmp a b = 0 ↔ a = b := by
  have hall : ∀ {l : List UInt8}, 0 ∉ l → l.takeWhile (· ≠ 0) = l := fun hl =>
    List.takeWhile_eq_self_iff.mpr (fun x hx => decide_eq_true fun h0 => hl (h0 ▸ hx))
  rw [strcmp_eq_zero_iff_cstr, hall ha, hall hb]

section Walk

variable {s : Vfs} {ts : List (List UInt8)} {t : List UInt8} {c : NodeId}

theorem visit_dot (s : Vfs) (current : Option NodeId) : visit s current dot = some (.next current) := by
  rfl

/-- The walk passes over `.`. -/
theorem walk_filter (s : Vfs) (ts : List (List UInt8)) (current : Option NodeId) :
    walk s (ts.filter (· ≠ dot)) current = walk s ts current := by
  induction ts generalizing current with
  | nil => rfl
  | cons t ts ih =>
    by_cases ht : t = dot
    · subst ht
      simp only [walk, visit_dot]
      rw [List.filter_cons_of_neg (by simp), ih]
      rfl
    · rw [List.filter_cons_of_pos (by simpa using ht)]
      simp only [walk, ih]

/-- The three moves, from a node. -/
theorem visit_eq (s : Vfs) (c : NodeId) (t : List UInt8) :
    visit s (some c) t =
      if strcmp t dot = 0 then some (.next (some c))
      else if strcmp t dotdot = 0 then (s.nodes c).map (fun n => .next (some (n.parent.getD c)))
      else (vfsDirFindChild s c t).map (fun r => r.elim .missing (fun child => .next (some child))) := by
  unfold visit
  split_ifs
  · rfl
  · rcases hn : s.nodes c with _ | n
    · simp [hn]
    · cases hp : n.parent <;> simp [hn, hp]
  · rcases hr : vfsDirFindChild s c t with _ | r
    · simp [hr]
    · cases r <;> simp [hr]

/-- A move from a node leads to a node, if anywhere. -/
theorem visit_next {v : Option NodeId} (h : visit s (some c) t = some (.next v)) : ∃ c', v = some c' := by
  rw [visit_eq] at h
  split_ifs at h
  · cases h
    exact ⟨c, rfl⟩
  · obtain ⟨n, -, heq⟩ := Option.map_eq_some_iff.mp h
    cases heq
    exact ⟨_, rfl⟩
  · obtain ⟨r, -, heq⟩ := Option.map_eq_some_iff.mp h
    cases r <;> cases heq
    exact ⟨_, rfl⟩

/-- Walking on from where a walk ended. -/
theorem walk_append (s : Vfs) (ts us : List (List UInt8)) (c : NodeId) :
    walk s (ts ++ us) (some c) =
      (walk s ts (some c)).bind (fun r => r.elim (some none) (fun a => walk s us (some a))) := by
  induction ts generalizing c with
  | nil => rfl
  | cons t ts ih =>
    simp only [List.cons_append, walk]
    rcases hv : visit s (some c) t with _ | v
    · rfl
    · cases v with
      | missing => rfl
      | next v =>
        obtain ⟨c', rfl⟩ := visit_next hv
        exact ih c'

/-- A walk that ends at a node went through the node before the last move. -/
theorem walk_snoc_iff {a e : NodeId} :
    walk s (ts ++ [t]) (some a) = some (some e) ↔
      ∃ d, walk s ts (some a) = some (some d) ∧ visit s (some d) t = some (.next (some e)) := by
  have hlast : ∀ d, walk s [t] (some d) = some (some e) ↔ visit s (some d) t = some (.next (some e)) := by
    intro d
    rcases hv : visit s (some d) t with _ | _ | v <;> simp [walk, hv]
  rw [walk_append]
  constructor
  · intro h
    obtain ⟨v, hv, h⟩ := Option.bind_eq_some_iff.mp h
    cases v with
    | none => cases h
    | some d => exact ⟨d, hv, (hlast d).mp h⟩
  · rintro ⟨d, hd, hv⟩
    rw [hd]
    exact (hlast d).mpr hv

end Walk

/-! ## 3. Moves in a tree -/

section Moves

variable {g : Grown} {kids : NodeId → List NodeId} (h : TreeOk g kids)
include h

/-- A move stays in the tree. -/
theorem TreeOk.visit_inTree {a : NodeId} (ha : InTree g.vfs a) (t : List UInt8) :
    ∃ v, visit g.vfs (some a) t = some v ∧ ∀ c, v = .next (some c) → InTree g.vfs c := by
  rw [visit_eq]
  split_ifs
  · refine ⟨_, rfl, ?_⟩
    rintro c ⟨⟩
    exact ha
  · obtain ⟨n, hn, hparent⟩ := h.node ha
    refine ⟨_, by rw [hn, Option.map_some], ?_⟩
    rintro c ⟨⟩
    rcases hparent with ⟨-, hp⟩ | ⟨d, hp, hd, -⟩
    · rw [hp]
      exact ha
    · rw [hp]
      exact hd
  · obtain ⟨r, hr, hmem⟩ := h.find ha t
    refine ⟨_, by rw [hr, Option.map_some], ?_⟩
    intro c hc
    cases r with
    | none => cases hc
    | some x =>
      cases hc
      exact h.inTree_child ha (hmem c rfl)

/-- **Down and up again.** -/
theorem TreeOk.visit_up {a c : NodeId} (ha : InTree g.vfs a) {t : List UInt8}
    (hdot : strcmp t dot ≠ 0) (hdotdot : strcmp t dotdot ≠ 0)
    (hdown : visit g.vfs (some a) t = some (.next (some c))) :
    visit g.vfs (some c) dotdot = some (.next (some a)) := by
  rw [visit_eq, if_neg hdot, if_neg hdotdot] at hdown
  obtain ⟨r, hr, hmem⟩ := h.find ha t
  rw [hr, Option.map_some] at hdown
  cases r with
  | none => cases hdown
  | some x =>
    cases hdown
    obtain ⟨n, hn, hp⟩ := h.child (hmem c rfl)
    rw [visit_eq, if_neg (by decide), if_pos (by decide), hn, Option.map_some, hp]
    rfl

/-- The root has nowhere to go up to. -/
theorem TreeOk.visit_root {r : NodeId} (hr : g.vfs.root = some r) :
    visit g.vfs (some r) dotdot = some (.next (some r)) := by
  obtain ⟨r', n, hr', hn, hp⟩ := h.root
  obtain rfl : r' = r := Option.some.inj (hr'.symm.trans hr)
  rw [visit_eq, if_neg (by decide), if_pos (by decide), hn, Option.map_some, hp]
  rfl

/-- **A walk returns**, and ends in the tree if it does not fail. -/
theorem TreeOk.walk_returns (ts : List (List UInt8)) {a : NodeId} (ha : InTree g.vfs a) :
    ∃ r, walk g.vfs ts (some a) = some r ∧ ∀ c, r = some c → InTree g.vfs c := by
  induction ts generalizing a with
  | nil =>
    refine ⟨some a, rfl, ?_⟩
    rintro c ⟨⟩
    exact ha
  | cons t ts ih =>
    obtain ⟨v, hv, hin⟩ := h.visit_inTree ha t
    cases v with
    | missing => exact ⟨none, by simp [walk, hv], by simp⟩
    | next v =>
      obtain ⟨c, rfl⟩ := visit_next hv
      obtain ⟨r, hr, hend⟩ := ih (hin c rfl)
      exact ⟨r, by simpa [walk, hv] using hr, hend⟩

end Moves

/-! ## 4. The laws -/

theorem components_eq (p : CString) :
    p.components = (fields slash p.bytes).filter (· ≠ dot) := by
  rw [CString.components, fields, List.filter_filter]
  congr 1
  funext c
  simp [Bool.and_comm]

theorem join_absolute {q : CString} (hq : q.bytes ≠ []) (x : CString) :
    (q.join x).Absolute ↔ q.Absolute := by
  rw [CString.Absolute, CString.join, List.head?_append_of_ne_nil _ hq, CString.Absolute]

theorem fields_join (q : CString) {x : CString} (hne : x.bytes ≠ []) (hslash : slash ∉ x.bytes) :
    fields slash (q.join x).bytes = fields slash q.bytes ++ [x.bytes] := by
  rw [CString.join, fields_append_sep, fields_of_not_mem hslash hne]

section Laws

variable {s : Vfs} {added : Finset NodeId} {kids : NodeId → List NodeId} {r w : NodeId}

/-- The node a path starts from. -/
def startOf (r w : NodeId) (p : CString) : NodeId := if p.Absolute then r else w

theorem startOf_join {q x : CString} (hq : q.bytes ≠ []) :
    startOf r w (q.join x) = startOf r w q := by
  simp only [startOf, join_absolute hq]

/-- `resolve_path` is the walk from there. -/
theorem resolvesTo_iff (hr : s.root = some r) (hw : s.cwd = some w) {p : CString}
    {node : Option NodeId} :
    ResolvesTo s p node ↔ walk s (fields slash p.bytes) (some (startOf r w p)) = some node := by
  have hstart : (if p.Absolute then walk s (fields slash p.bytes) s.root
      else if s.cwd = none then some none else walk s (fields slash p.bytes) s.cwd) =
      walk s (fields slash p.bytes) (some (startOf r w p)) := by
    unfold startOf
    rw [hr, hw]
    split <;> simp
  constructor
  · intro hres
    obtain ⟨calls, h⟩ := hres 1 Nat.one_ne_zero
    rw [resolvePath_eq s p Nat.one_ne_zero, hstart] at h
    obtain ⟨node', hwalk, heq⟩ := Option.map_eq_some_iff.mp h
    rw [hwalk, (Prod.mk.inj heq).1]
  · intro hwalk copy hcopy
    exact ⟨_, by rw [resolvePath_eq s p hcopy, hstart, hwalk, Option.map_some]⟩

theorem inTree_startOf (hr : s.root = some r) (hin : InTree s w) (p : CString) :
    InTree s (startOf r w p) := by
  unfold startOf
  split
  · exact ⟨r, hr, .refl⟩
  · exact hin

variable (h : TreeOk ⟨s, added⟩ kids) (hr : s.root = some r) (hw : s.cwd = some w)
include h hr hw

/-- A path to the root stays there with `..` behind it. -/
theorem TreeOk.resolves_top {p : CString} (hp : ResolvesTo s p (some r)) :
    ResolvesTo s (p.join upPath) (some r) := by
  have htop := h.visit_root hr
  rw [resolvesTo_iff hr hw] at hp ⊢
  rw [fields_join p (by decide) (by decide)]
  by_cases hempty : p.bytes = []
  · -- `/..`, whatever the working directory is
    have habs : (p.join upPath).Absolute := by
      simp [CString.Absolute, CString.join, hempty]
    rw [hempty, fields_nil, startOf, if_pos habs]
    exact walk_snoc_iff.mpr ⟨r, rfl, htop⟩
  · rw [startOf_join hempty]
    exact walk_snoc_iff.mpr ⟨r, hp, htop⟩

variable (hin : InTree s w)
include hin

/-- Only the start and the components count. -/
theorem TreeOk.resolves_same {p p' : CString} (habs : p.Absolute ↔ p'.Absolute)
    (hcomp : p.components = p'.components) : ∃ node, ResolvesTo s p node ∧ ResolvesTo s p' node := by
  have hstarts : startOf r w p' = startOf r w p := by
    simp only [startOf, habs]
  obtain ⟨node, hnode, -⟩ := h.walk_returns (fields slash p.bytes) (inTree_startOf hr hin p)
  refine ⟨node, (resolvesTo_iff hr hw).mpr hnode, (resolvesTo_iff hr hw).mpr ?_⟩
  rw [hstarts, ← walk_filter, ← components_eq, ← hcomp, components_eq, walk_filter]
  exact hnode

/-- The last step of `q/x` goes to a child of the node of `q`, and `..` goes back. -/
theorem TreeOk.resolves_up {q x : CString} (hq : q.bytes ≠ []) (hx : x.IsName) {a : NodeId}
    (ha : ResolvesTo s (q.join x) (some a)) :
    ∃ d, ResolvesTo s q (some d) ∧ ResolvesTo s ((q.join x).join upPath) (some d) := by
  have hdot : strcmp x.bytes dot ≠ 0 := fun h0 =>
    hx.ne_dot ((strcmp_eq_zero_iff x.noNul (by decide)).mp h0)
  have hdotdot : strcmp x.bytes dotdot ≠ 0 := fun h0 =>
    hx.ne_dotdot ((strcmp_eq_zero_iff x.noNul dotdot_noNul).mp h0)
  rw [resolvesTo_iff hr hw, fields_join q hx.ne_nil hx.noSlash, startOf_join hq] at ha
  obtain ⟨d, hd, hdown⟩ := walk_snoc_iff.mp ha
  obtain ⟨v, hv, hdin⟩ := h.walk_returns (fields slash q.bytes) (inTree_startOf hr hin q)
  obtain rfl : v = some d := Option.some.inj (hv.symm.trans hd)
  have hup := h.visit_up (hdin d rfl) hdot hdotdot hdown
  refine ⟨d, (resolvesTo_iff hr hw).mpr hd, (resolvesTo_iff hr hw).mpr ?_⟩
  rw [startOf_join (by simp [CString.join]), startOf_join hq,
    fields_join _ (by decide) (by decide), fields_join q hx.ne_nil hx.noSlash]
  exact walk_snoc_iff.mpr ⟨a, ha, hup⟩

/-- **The laws** in a tree whose children are in lists. -/
theorem TreeOk.pathLaws : PathLaws s := by
  constructor
  case same => exact fun p p' habs hcomp => h.resolves_same hr hw hin habs hcomp
  case up => exact fun q x hq hx a ha => h.resolves_up hr hw hin hq hx ha
  case top =>
    intro r' hr'
    obtain rfl : r = r' := Option.some.inj (hr.symm.trans hr')
    refine ⟨fun p hp => h.resolves_top hr hw hp, fun hcwd => ?_⟩
    obtain rfl : w = r := Option.some.inj (hw.symm.trans hcwd)
    have hstarts : startOf w w upPath = w := by simp [startOf]
    have hfields : fields slash upPath.bytes = [] ++ [dotdot] :=
      fields_of_not_mem (by decide) (by decide)
    rw [resolvesTo_iff hr hw, hstarts, hfields]
    exact walk_snoc_iff.mpr ⟨w, rfl, h.visit_root hr⟩

end Laws

end JarvOs.Fs
