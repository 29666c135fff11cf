/-
# Intrusive lists

Objects that carry their own link: `next x` is the object after `x` in whatever list `x` is in, and
a list is a pointer to its first member.  `Path next a xs b` reads a list off such pointers: from
`a` the links go through `xs`, in order, and arrive at `b`; a NULL-terminated list is a path to
`none`.

Because all lists share one link field, what keeps them apart is that no object is on two of them.
`Exclusive` says so for a family of lists, and `Exclusive.move` is the one fact every transfer of
an object from one list to another needs.

A list with links both ways (`Linked`) is a list forwards and the reversed list backwards.  So what a
removal does to the one direction it does to the other as well, with first and last exchanged
(`Chain.remove`, `Linked.remove`).
-/
import Mathlib

namespace JarvOs.Lib

/-! ## 1. Paths -/

section Paths

variable {α : Type} {next next' : α → Option α} {a b : Option α} {x t : α} {xs ys : List α}

/-- From `a` the links lead through `xs` to `b`. -/
def Path (next : α → Option α) : Option α → List α → Option α → Prop
  | a, [], b => a = b
  | a, x :: xs, b => a = some x ∧ Path next (next x) xs b

/-- A NULL-terminated list. -/
abbrev Chain (next : α → Option α) (a : Option α) (xs : List α) : Prop := Path next a xs none

theorem path_append : Path next a (xs ++ ys) b ↔ ∃ c, Path next a xs c ∧ Path next c ys b := by
  induction xs generalizing a with
  | nil => simp [Path]
  | cons x xs ih => simp only [List.cons_append, Path, ih, exists_and_left, and_assoc]

/-- A path depends on the links of its members only. -/
theorem Path.congr (h : Path next a xs b) (heq : ∀ x ∈ xs, next' x = next x) :
    Path next' a xs b := by
  induction xs generalizing a with
  | nil => exact h
  | cons x xs ih =>
    refine ⟨h.1, ?_⟩
    rw [heq x List.mem_cons_self]
    exact ih h.2 (fun y hy => heq y (List.mem_cons_of_mem _ hy))

/-- The pointer to a list is the pointer to its first member. -/
theorem Chain.head (h : Chain next a xs) : a = xs.head? := by
  cases xs with
  | nil => exact h
  | cons x xs => exact h.1

/-- **A pointer determines its list.** -/
theorem Chain.unique (h : Chain next a xs) (h' : Chain next a ys) : xs = ys := by
  induction xs generalizing a ys with
  | nil =>
    cases ys with
    | nil => rfl
    | cons y ys => exact absurd (h.symm.trans h'.1) (by simp)
  | cons x xs ih =>
    cases ys with
    | nil => exact absurd (h'.symm.trans h.1) (by simp)
    | cons y ys =>
      obtain rfl : x = y := Option.some.inj (h.1.symm.trans h'.1)
      rw [ih h.2 h'.2]

variable [DecidableEq α]

theorem Path.update_off (h : Path next a xs b) (hx : x ∉ xs) (v : Option α) :
    Path (Function.update next x v) a xs b := by
  refine h.congr (fun y hy => Function.update_of_ne ?_ _ _)
  rintro rfl
  exact hx hy

/-- A new first member. -/
theorem Path.push (h : Path next a xs b) (hx : x ∉ xs) :
    Path (Function.update next x a) (some x) (x :: xs) b := by
  refine ⟨rfl, ?_⟩
  rw [Function.update_self]
  exact h.update_off hx a

/-- Pointing the last member elsewhere. -/
theorem Path.relink (h : Path next a xs b) (hnd : xs.Nodup) (ht : xs.getLast? = some t)
    (c : Option α) : Path (Function.update next t c) a xs c := by
  obtain ⟨ys, rfl⟩ := List.getLast?_eq_some_iff.mp ht
  obtain ⟨d, hys, hd, -⟩ := path_append.mp h
  have hnot : t ∉ ys := fun hm => (List.nodup_append.mp hnd).2.2 t hm t (by simp) rfl
  exact path_append.mpr ⟨d, hys.update_off hnot c, hd, Function.update_self _ _ _⟩

/-- A new last member: the old last one points to it, it points to nothing. -/
theorem Chain.snoc (h : Chain next a xs) (hnd : xs.Nodup) (ht : xs.getLast? = some t)
    (hx : x ∉ xs) :
    Chain (Function.update (Function.update next t (some x)) x none) a (xs ++ [x]) :=
  path_append.mpr ⟨some x, (h.relink hnd ht (some x)).update_off hx none, rfl,
    Function.update_self _ _ _⟩

/-- The same for any list and any links that do it: to an empty list the head has to point. -/
theorem Chain.concat (h : Chain next a xs) (hnd : xs.Nodup) (hx : x ∉ xs)
    (hnext : ∀ y ∈ xs, next' y = if xs.getLast? = some y then some x else next y)
    (hnextx : next' x = none) : Chain next' (if a = none then some x else a) (xs ++ [x]) := by
  rcases hlast : xs.getLast? with _ | t
  · obtain rfl := List.getLast?_eq_none_iff.mp hlast
    have ha : a = none := h
    rw [if_pos ha]
    exact ⟨rfl, hnextx⟩
  · have ha : a ≠ none := by
      rw [h.head, ne_eq, List.head?_eq_none_iff]
      rintro rfl
      cases hlast
    rw [if_neg ha]
    refine (h.snoc hnd hlast hx).congr (fun y hy => ?_)
    rcases List.mem_append.mp hy with hy | hy
    · have hyx : y ≠ x := fun heq => hx (heq ▸ hy)
      rw [hnext y hy, Function.update_of_ne hyx, hlast]
      rcases eq_or_ne y t with rfl | hyt
      · rw [if_pos rfl, Function.update_self]
      · rw [if_neg (fun heq => hyt (Option.some.inj heq).symm), Function.update_of_ne hyt]
    · obtain rfl := List.mem_singleton.mp hy
      rw [hnextx, Function.update_self]

/-- **Taking out a member** that is not the first: the one before it points past it. -/
theorem Chain.unlink (h : Chain next a (xs ++ x :: ys)) (hnd : (xs ++ x :: ys).Nodup)
    (ht : xs.getLast? = some t) : Chain (Function.update next t (next x)) a (xs ++ ys) := by
  obtain ⟨c, hxs, -, hys⟩ := path_append.mp h
  obtain ⟨hnd', -, hdis⟩ := List.nodup_append.mp hnd
  have hnot : t ∉ ys := fun hm =>
    hdis t (List.mem_of_getLast? ht) t (List.mem_cons_of_mem x hm) rfl
  exact path_append.mpr ⟨next x, hxs.relink hnd' ht (next x), hys.update_off hnot (next x)⟩

end Paths

/-! ## 2. Families of lists -/

section Families

variable {ι α : Type} {ls : ι → List α} {i j : ι} {x : α} {xs ys : List α}

/-- No object occurs twice, in one list or in two. -/
structure Exclusive (ls : ι → List α) : Prop where
  nodup : ∀ i, (ls i).Nodup
  apart : ∀ {i j x}, x ∈ ls i → x ∈ ls j → i = j

theorem Exclusive.not_mem (h : Exclusive ls) (hi : x ∈ ls i) (hij : j ≠ i) : x ∉ ls j :=
  fun hj => hij (h.apart hj hi)

/-- All lists together have no duplicates. -/
theorem Exclusive.flatMap_nodup (h : Exclusive ls) (is : List ι) (his : is.Nodup) :
    (is.flatMap ls).Nodup := by
  refine List.nodup_flatMap.mpr ⟨fun i _ => h.nodup i, his.imp ?_⟩
  exact fun hij x hi hj => hij (h.apart hi hj)

/-- Conversely, if `is` are all of the lists. -/
theorem exclusive_of_nodup (is : List ι) (hall : ∀ i, i ∈ is) (h : (is.flatMap ls).Nodup) :
    Exclusive ls := by
  obtain ⟨hnd, hpair⟩ := List.nodup_flatMap.mp h
  have hsymm : Std.Symm (Function.onFun List.Disjoint ls) := ⟨fun _ _ hd => List.Disjoint.symm hd⟩
  refine ⟨fun i => hnd i (hall i), fun {i j x} hi hj => ?_⟩
  by_contra hij
  exact hpair.forall (hall i) (hall j) hij hi hj

variable [DecidableEq ι]

theorem mem_update_sublist (hsub : xs.Sublist (ls i)) {k : ι} {y : α}
    (hy : y ∈ Function.update ls i xs k) : y ∈ ls k := by
  by_cases hk : k = i
  · subst hk
    rw [Function.update_self] at hy
    exact hsub.subset hy
  · rwa [Function.update_of_ne hk] at hy

theorem mem_update_perm (hys : ys.Perm (x :: ls j)) {k : ι} {y : α}
    (hy : y ∈ Function.update ls j ys k) : y ∈ ls k ∨ (y = x ∧ k = j) := by
  by_cases hk : k = j
  · subst hk
    rw [Function.update_self, hys.mem_iff, List.mem_cons] at hy
    exact hy.elim (fun h => Or.inr ⟨h, rfl⟩) Or.inl
  · rw [Function.update_of_ne hk] at hy
    exact Or.inl hy

/-- Giving up objects. -/
theorem Exclusive.shrink (h : Exclusive ls) (hsub : xs.Sublist (ls i)) :
    Exclusive (Function.update ls i xs) := by
  refine ⟨fun k => ?_, fun hk hl => h.apart (mem_update_sublist hsub hk) (mem_update_sublist hsub hl)⟩
  by_cases hk : k = i
  · subst hk
    rw [Function.update_self]
    exact (h.nodup k).sublist hsub
  · rw [Function.update_of_ne hk]
    exact h.nodup k

/-- Taking in an object that is nowhere. -/
theorem Exclusive.insert (h : Exclusive ls) (hx : ∀ k, x ∉ ls k) (hys : ys.Perm (x :: ls j)) :
    Exclusive (Function.update ls j ys) := by
  refine ⟨fun k => ?_, fun {k l y} hk hl => ?_⟩
  · by_cases hk : k = j
    · subst hk
      rw [Function.update_self, hys.nodup_iff, List.nodup_cons]
      exact ⟨hx k, h.nodup k⟩
    · rw [Function.update_of_ne hk]
      exact h.nodup k
  · rcases mem_update_perm hys hk with hk | ⟨rfl, rfl⟩ <;>
      rcases mem_update_perm hys hl with hl | ⟨hy, hl⟩
    · exact h.apart hk hl
    · exact absurd (hy ▸ hk) (hx k)
    · exact absurd hl (hx l)
    · exact hl.symm

/-- **Moving an object** from list `i` to list `j`. -/
theorem Exclusive.move (h : Exclusive ls) (hij : i ≠ j) (hi : (ls i).Perm (x :: xs))
    (hsub : xs.Sublist (ls i)) (hys : ys.Perm (x :: ls j)) :
    Exclusive (Function.update (Function.update ls i xs) j ys) := by
  refine (h.shrink hsub).insert (fun k => ?_) (by rwa [Function.update_of_ne hij.symm])
  have hx : x ∈ ls i := hi.mem_iff.mpr List.mem_cons_self
  by_cases hk : k = i
  · subst hk
    rw [Function.update_self]
    exact (List.nodup_cons.mp (hi.nodup_iff.mp (h.nodup k))).1
  · rw [Function.update_of_ne hk]
    exact h.not_mem hx hk

end Families

/-! ## 3. Links both ways -/

section BothWays

variable {α : Type} {next next' prev prev' : α → Option α} {head tail b : Option α} {x : α}
  {xs pre post : List α}

/-- The list `xs`, from its first member with `next` and from its last with `prev`. -/
structure Linked (next prev : α → Option α) (head tail : Option α) (xs : List α) : Prop where
  forward : Chain next head xs
  backward : Chain prev tail xs.reverse

theorem Linked.congr (h : Linked next prev head tail xs) (hnext : ∀ x ∈ xs, next' x = next x)
    (hprev : ∀ x ∈ xs, prev' x = prev x) : Linked next' prev' head tail xs :=
  ⟨h.forward.congr hnext, h.backward.congr (fun x hx => hprev x (List.mem_reverse.mp hx))⟩

theorem Linked.tail_eq (h : Linked next prev head tail xs) : tail = xs.getLast? := by
  rw [h.backward.head, List.head?_reverse]

theorem Linked.ends_iff (h : Linked next prev head tail xs) : head = none ↔ tail = none := by
  rw [h.tail_eq, h.forward.head, List.head?_eq_none_iff, List.getLast?_eq_none_iff]

/-- The link of a member leads to the rest of the list. -/
theorem Chain.next_eq (h : Chain next head (pre ++ x :: post)) : next x = post.head? := by
  obtain ⟨c, -, -, hpost⟩ := path_append.mp h
  exact Chain.head hpost

theorem Linked.next_eq (h : Linked next prev head tail (pre ++ x :: post)) : next x = post.head? :=
  h.forward.next_eq

theorem Linked.prev_eq (h : Linked next prev head tail (pre ++ x :: post)) :
    prev x = pre.getLast? := by
  have hback := h.backward
  rw [List.reverse_append, List.reverse_cons, List.append_assoc, List.singleton_append] at hback
  rw [Chain.next_eq hback, List.head?_reverse]

variable [DecidableEq α]

/-- **A new last member.** -/
theorem Linked.snoc (h : Linked next prev head tail xs) (hnd : xs.Nodup) (hx : x ∉ xs)
    (hnext : ∀ y ∈ xs, next' y = if tail = some y then some x else next y) (hnextx : next' x = none)
    (hprev : ∀ y ∈ xs, prev' y = prev y) (hprevx : prev' x = tail) :
    Linked next' prev' (if head = none then some x else head) (some x) (xs ++ [x]) := by
  constructor
  · refine h.forward.concat hnd hx (fun y hy => ?_) hnextx
    rw [hnext y hy, h.tail_eq]
  · rw [List.reverse_append, List.reverse_singleton, List.singleton_append]
    refine ⟨rfl, ?_⟩
    rw [hprevx]
    exact h.backward.congr (fun y hy => hprev y (List.mem_reverse.mp hy))

/-- **Taking out a member**, in one direction: `b` is the member in front of it, if there is one. -/
theorem Chain.remove (h : Chain next head (pre ++ x :: post)) (hnd : (pre ++ x :: post).Nodup)
    (hb : b = pre.getLast?)
    (hnext : ∀ y ∈ pre ++ post, next' y = if b = some y then next x else next y) :
    Chain next' (if b = none then next x else head) (pre ++ post) := by
  rcases hlast : pre.getLast? with _ | t
  · obtain rfl := List.getLast?_eq_none_iff.mp hlast
    rw [hb, hlast, if_pos rfl]
    refine Path.congr h.2 (fun y hy => ?_)
    rw [hnext y hy, hb, hlast, if_neg (by simp)]
  · rw [hb, hlast, if_neg (by simp)]
    refine (h.unlink hnd hlast).congr (fun y hy => ?_)
    rw [hnext y hy, hb, hlast]
    rcases eq_or_ne y t with rfl | hyt
    · rw [if_pos rfl, Function.update_self]
    · rw [if_neg (fun heq => hyt (Option.some.inj heq).symm), Function.update_of_ne hyt]

/-- **Taking out a member**: the two on either side of it, or the ends of the list, are joined. -/
theorem Linked.remove (h : Linked next prev head tail (pre ++ x :: post))
    (hnd : (pre ++ x :: post).Nodup)
    (hnext : ∀ y ∈ pre ++ post, next' y = if prev x = some y then next x else next y)
    (hprev : ∀ y ∈ pre ++ post, prev' y = if next x = some y then prev x else prev y) :
    Linked next' prev' (if prev x = none then next x else head)
      (if next x = none then prev x else tail) (pre ++ post) := by
  refine ⟨h.forward.remove hnd h.prev_eq hnext, ?_⟩
  -- backwards the list is the reversed one, and what follows the member is in front of it
  have hback := h.backward
  have hsplit : (pre ++ x :: post).reverse = post.reverse ++ x :: pre.reverse := by simp
  rw [hsplit] at hback
  rw [List.reverse_append]
  refine hback.remove (by rw [← hsplit]; exact List.nodup_reverse.mpr hnd) ?_ (fun y hy => ?_)
  · rw [h.next_eq, List.getLast?_reverse]
  · refine hprev y ?_
    rcases List.mem_append.mp hy with hy | hy
    · exact List.mem_append_right _ (List.mem_reverse.mp hy)
    · exact List.mem_append_left _ (List.mem_reverse.mp hy)

end BothWays

end JarvOs.Lib
