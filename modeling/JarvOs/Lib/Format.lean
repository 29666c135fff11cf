/-
# Texts that can be read back

A text is written piece by piece.  A reader takes its piece from the front of a list of symbols and leaves the
rest; it reads back what a writer writes if it finds that piece whatever comes behind it (`ReadsBack`).  The
pieces here are constants, one of two constants, a fixed number of symbols, and a line with its end.
-/
import Mathlib

namespace JarvOs.Lib.Format

variable {α β : Type}

/-- Something from the front of a list, and the rest of the list. -/
abbrev Reader (β α : Type) := List β → Option (α × List β)

/-- `read` finds what `write` has written, whatever comes behind. -/
def ReadsBack (write : α → List β) (read : Reader β α) : Prop :=
  ∀ a rest, read (write a ++ rest) = some (a, rest)

section Constants

variable [DecidableEq β]

/-- A constant. -/
def constant (xs : List β) : Reader β Unit := fun bs => (bs.dropPrefix? xs).map (fun rest => ((), rest))

/-- One of two constants: `true` for the first. -/
def oneOf (xs ys : List β) : Reader β Bool := fun bs =>
  match bs.dropPrefix? xs with
  | some rest => some (true, rest)
  | none => (bs.dropPrefix? ys).map (fun rest => (false, rest))

/-- A line; its end is taken as well. -/
def line (sep : β) : Reader β (List β) := fun bs =>
  match bs.dropWhile (· != sep) with
  | [] => none
  | _ :: rest => some (bs.takeWhile (· != sep), rest)

theorem dropPrefix?_append (xs rest : List β) : (xs ++ rest).dropPrefix? xs = some rest :=
  List.dropPrefix?_eq_some_iff.mpr ⟨xs, rfl, beq_self_eq_true xs⟩

theorem dropPrefix?_of_head {xs ys : List β} {x y : β} (hx : xs.head? = some x) (hy : ys.head? = some y)
    (hne : x ≠ y) (rest : List β) : (ys ++ rest).dropPrefix? xs = none := by
  obtain ⟨xs', rfl⟩ := List.head?_eq_some_iff.mp hx
  obtain ⟨ys', rfl⟩ := List.head?_eq_some_iff.mp hy
  rw [List.cons_append, List.dropPrefix?, if_neg (by simpa using hne.symm)]

theorem constant_append (xs rest : List β) : constant xs (xs ++ rest) = some ((), rest) := by
  rw [constant, dropPrefix?_append, Option.map_some]

/-- A constant that is not there. -/
theorem constant_other {xs ys : List β} {x y : β} (hx : xs.head? = some x) (hy : ys.head? = some y)
    (hne : x ≠ y) (rest : List β) : constant xs (ys ++ rest) = none := by
  rw [constant, dropPrefix?_of_head hx hy hne, Option.map_none]

/-- Two constants are told apart by their first symbols. -/
theorem oneOf_readsBack (xs ys : List β) {x y : β} (hx : xs.head? = some x) (hy : ys.head? = some y)
    (hne : x ≠ y) : ReadsBack (fun b => if b then xs else ys) (oneOf xs ys) := by
  intro b rest
  cases b with
  | true => simp only [oneOf, if_true, dropPrefix?_append]
  | false =>
    simp only [oneOf, Bool.false_eq_true, if_false, dropPrefix?_of_head hx hy hne, dropPrefix?_append,
      Option.map_some]

theorem line_append {sep : β} {xs : List β} (hxs : sep ∉ xs) (rest : List β) :
    line sep (xs ++ sep :: rest) = some (xs, rest) := by
  have hpass : ∀ x ∈ xs, (x != sep) = true := fun x hx => by
    simpa using fun h : x = sep => hxs (h ▸ hx)
  rw [line, List.dropWhile_append_of_pos hpass, List.takeWhile_append_of_pos hpass]
  simp

end Constants

/-- So many symbols, with what they stand for. -/
def fixed (n : Nat) (decode : List β → Option α) : Reader β α := fun bs =>
  (decode (bs.take n)).map (fun a => (a, bs.drop n))

theorem fixed_readsBack {n : Nat} {write : α → List β} {decode : List β → Option α}
    (hlen : ∀ a, (write a).length = n) (hdecode : ∀ a, decode (write a) = some a) :
    ReadsBack write (fixed n decode) := by
  intro a rest
  rw [fixed, List.take_left' (hlen a), List.drop_left' (hlen a), hdecode, Option.map_some]

end JarvOs.Lib.Format
