/-
# Byte buffers

A buffer is the list of its bytes.  `overlay` writes a list over a buffer at an offset; `copyIn`
and `copyOut` are a `memcpy` into and out of it, `none` when the range is not inside the buffer.

A file kept in a buffer is a FRONT part of it.  `take_overlay` is what makes that work: writing at
an offset inside the file, or right at its end, is an overlay of the file itself, whatever the rest
of the buffer holds.
-/
import Mathlib

namespace JarvOs.Lib

variable {α : Type} {xs ys : List α} {off n : Nat}

/-- `xs` with `ys` written over it from `off` on, longer than `xs` if need be. -/
def overlay (xs : List α) (off : Nat) (ys : List α) : List α :=
  xs.take off ++ ys ++ xs.drop (off + ys.length)

/-- `memcpy(buf + off, ys, ys.length)`. -/
def copyIn (buf : List α) (off : Nat) (ys : List α) : Option (List α) :=
  if off + ys.length ≤ buf.length then some (overlay buf off ys) else none

/-- `memcpy(_, buf + off, n)`: the bytes copied. -/
def copyOut (buf : List α) (off n : Nat) : Option (List α) :=
  if off + n ≤ buf.length then some ((buf.drop off).take n) else none

theorem copyIn_of_le {buf : List α} (h : off + ys.length ≤ buf.length) :
    copyIn buf off ys = some (overlay buf off ys) := if_pos h

theorem copyOut_of_le {buf : List α} (h : off + n ≤ buf.length) :
    copyOut buf off n = some ((buf.drop off).take n) := if_pos h

theorem length_overlay (h : off ≤ xs.length) :
    (overlay xs off ys).length = max xs.length (off + ys.length) := by
  simp only [overlay, List.length_append, List.length_take, List.length_drop]
  omega

/-- Inside the buffer a write does not change its length. -/
theorem length_overlay_of_le (h : off + ys.length ≤ xs.length) :
    (overlay xs off ys).length = xs.length := by
  rw [length_overlay (by omega), Nat.max_eq_left h]

/-- **A file at the front of a buffer.** -/
theorem take_overlay {buf : List α} {size : Nat} (hoff : off ≤ size) (hsize : size ≤ buf.length) :
    (overlay buf off ys).take (max size (off + ys.length)) = overlay (buf.take size) off ys := by
  have hfront : (buf.take off ++ ys).length = off + ys.length := by
    rw [List.length_append, List.length_take, Nat.min_eq_left (by omega)]
  rw [overlay, overlay, List.take_append, hfront, List.take_of_length_le (by omega),
    List.take_take, Nat.min_eq_left hoff, List.drop_take]
  congr 2
  omega

/-- A file at the front of a buffer, read. -/
theorem take_drop_take {buf : List α} {size : Nat} (h : off + n ≤ size) :
    (buf.drop off).take n = ((buf.take size).drop off).take n := by
  rw [List.drop_take, List.take_take, Nat.min_eq_left (by omega)]

end JarvOs.Lib
