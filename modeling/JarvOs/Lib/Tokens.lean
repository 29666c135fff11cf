/-
# Strings in a buffer, and `strtok_r`

A C string is what a buffer holds from a position up to the first zero (`cstrAt`).  The fields of a
string are its non-empty pieces between separators (`fields`, on top of `List.splitOn`).

`strtok_r` finds the fields one call at a time and IN PLACE: it overwrites the separator behind a
token with a zero and remembers the position after it.  The function belongs to the C library and is
modelled from its description in POSIX, with one separator.  `strtokR_spec` says what a call does in
terms of the string that is left: it takes the first field, if there is one, and the token can be
read off the changed buffer.
-/
import Mathlib

namespace JarvOs.Lib

/-! ## 1. Fields -/

section Fields

variable {α : Type} [DecidableEq α] {sep : α} {l xs : List α}

/-- The non-empty pieces of `l` between separators. -/
def fields (sep : α) (l : List α) : List (List α) := (l.splitOn sep).filter (· ≠ [])

@[simp] theorem fields_nil (sep : α) : fields sep [] = [] := by
  simp [fields]

theorem fields_append_sep (sep : α) (xs ys : List α) :
    fields sep (xs ++ sep :: ys) = fields sep xs ++ fields sep ys := by
  rw [fields, List.splitOn_append_cons_self, List.filter_append]
  rfl

theorem fields_sep_cons (sep : α) (xs : List α) : fields sep (sep :: xs) = fields sep xs :=
  fields_append_sep sep [] xs

theorem fields_of_not_mem (h : sep ∉ xs) (hne : xs ≠ []) : fields sep xs = [xs] := by
  rw [fields, List.splitOn_eq_singleton h]
  simp [hne]

/-- Separators in front are passed over. -/
theorem fields_dropWhile (sep : α) (l : List α) : fields sep (l.dropWhile (· = sep)) = fields sep l := by
  induction l with
  | nil => rfl
  | cons a l ih =>
    by_cases ha : a = sep
    · subst ha
      rw [List.dropWhile_cons_of_pos (by simp), ih, fields_sep_cons]
    · rw [List.dropWhile_cons_of_neg (by simpa using ha)]

/-- The first field of a string that does not start with a separator, and the string behind it. -/
theorem fields_eq_cons (h : l.takeWhile (· ≠ sep) ≠ []) :
    fields sep l = l.takeWhile (· ≠ sep) :: fields sep (l.dropWhile (· ≠ sep)).tail := by
  have hnot : sep ∉ l.takeWhile (· ≠ sep) := by
    intro hmem
    simpa using List.mem_takeWhile_imp hmem
  have hsplit : l = l.takeWhile (· ≠ sep) ++ l.dropWhile (· ≠ sep) :=
    List.takeWhile_append_dropWhile.symm
  rcases hd : l.dropWhile (· ≠ sep) with _ | ⟨b, rest⟩
  · rw [hd, List.append_nil] at hsplit
    rw [← hsplit] at hnot h ⊢
    simpa using fields_of_not_mem hnot h
  · obtain rfl : b = sep := by
      have := List.head?_dropWhile_not (fun a => decide (a ≠ sep)) l
      rw [hd] at this
      simpa using this
    rw [hd] at hsplit
    conv_lhs => rw [hsplit]
    rw [fields_append_sep, fields_of_not_mem hnot h]
    rfl

end Fields

/-! ## 2. Strings in a buffer -/

section TakeWhile

variable {α : Type} {p : α → Bool}

theorem drop_length_takeWhile (p : α → Bool) (l : List α) :
    l.drop (l.takeWhile p).length = l.dropWhile p := by
  induction l with
  | nil => rfl
  | cons a l ih =>
    by_cases ha : p a
    · simpa [List.takeWhile_cons_of_pos ha, List.dropWhile_cons_of_pos ha] using ih
    · simp [List.takeWhile_cons_of_neg ha, List.dropWhile_cons_of_neg ha]

theorem takeWhile_drop_of_le {l : List α} {k : Nat} (h : k ≤ (l.takeWhile p).length) :
    (l.drop k).takeWhile p = (l.takeWhile p).drop k := by
  induction l generalizing k with
  | nil => simp
  | cons a l ih =>
    cases k with
    | zero => rfl
    | succ k =>
      by_cases ha : p a
      · simp only [List.takeWhile_cons_of_pos ha, List.length_cons, Nat.add_le_add_iff_right] at h
        simpa [List.takeWhile_cons_of_pos ha] using ih h
      · simp [List.takeWhile_cons_of_neg ha] at h

theorem takeWhile_set {l : List α} {k : Nat} (h : k < (l.takeWhile p).length) {b : α}
    (hb : p b = false) : (l.set k b).takeWhile p = (l.takeWhile p).take k := by
  induction l generalizing k with
  | nil => simp at h
  | cons a l ih =>
    by_cases ha : p a
    · cases k with
      | zero => simp [hb]
      | succ k =>
        simp only [List.takeWhile_cons_of_pos ha, List.length_cons, Nat.add_lt_add_iff_right] at h
        simpa [List.takeWhile_cons_of_pos ha] using ih h
    · simp [List.takeWhile_cons_of_neg ha] at h

/-- Only what stands in front of the end and the end itself matter. -/
theorem takeWhile_congr_take {l l' : List α} {k : Nat} (h : l'.take k = l.take k)
    (hk : (l.takeWhile p).length < k) : l'.takeWhile p = l.takeWhile p := by
  induction l generalizing l' k with
  | nil =>
    rw [List.take_nil, List.take_eq_nil_iff] at h
    rcases h with rfl | rfl
    · exact absurd hk (Nat.not_lt_zero _)
    · rfl
  | cons a l ih =>
    obtain ⟨k, rfl⟩ := Nat.exists_eq_succ_of_ne_zero (Nat.ne_zero_of_lt hk)
    cases l' with
    | nil => exact absurd h (by simp)
    | cons b l' =>
      rw [List.take_succ_cons, List.take_succ_cons, List.cons.injEq] at h
      obtain ⟨rfl, h⟩ := h
      by_cases hb : p b
      · rw [List.takeWhile_cons_of_pos hb, List.length_cons] at hk
        rw [List.takeWhile_cons_of_pos hb, List.takeWhile_cons_of_pos hb,
          ih h (Nat.lt_of_succ_lt_succ hk)]
      · rw [List.takeWhile_cons_of_neg hb, List.takeWhile_cons_of_neg hb]

end TakeWhile

variable {buf : List UInt8} {pos k : Nat}

/-- The string at `pos`. -/
def cstrAt (buf : List UInt8) (pos : Nat) : List UInt8 := (buf.drop pos).takeWhile (· ≠ 0)

theorem cstrAt_terminated {s : List UInt8} (h : 0 ∉ s) (rest : List UInt8) :
    cstrAt (s ++ 0 :: rest) 0 = s := by
  have hs : ∀ b ∈ s, decide (b ≠ 0) = true := by
    intro b hb
    exact decide_eq_true (fun h0 => h (h0 ▸ hb))
  rw [cstrAt, List.drop_zero, List.takeWhile_append_of_pos hs]
  simp

/-- Going forward within the string. -/
theorem cstrAt_add (h : k ≤ (cstrAt buf pos).length) :
    cstrAt buf (pos + k) = (cstrAt buf pos).drop k := by
  rw [cstrAt, ← List.drop_drop]
  exact takeWhile_drop_of_le h

/-- Going forward over the bytes that satisfy `p`. -/
theorem cstrAt_past (p : UInt8 → Bool) (buf : List UInt8) (pos : Nat) :
    cstrAt buf (pos + ((cstrAt buf pos).takeWhile p).length) = (cstrAt buf pos).dropWhile p := by
  rw [cstrAt_add (List.takeWhile_prefix p).length_le, drop_length_takeWhile]

/-- A zero written into the string ends it there. -/
theorem cstrAt_set (h : k < (cstrAt buf pos).length) :
    cstrAt (buf.set (pos + k) 0) pos = (cstrAt buf pos).take k := by
  have hset : (buf.set (pos + k) 0).drop pos = (buf.drop pos).set k 0 := by
    rw [List.drop_set, if_neg (by omega), Nat.add_sub_cancel_left]
  rw [cstrAt, hset]
  exact takeWhile_set h rfl

/-- A write before the string. -/
theorem cstrAt_set_lt {j : Nat} (h : j < pos) (b : UInt8) :
    cstrAt (buf.set j b) pos = cstrAt buf pos := by
  rw [cstrAt, List.drop_set_of_lt h, cstrAt]

/-- A string depends on its bytes and its terminator only. -/
theorem cstrAt_congr_take {buf' : List UInt8} {q : Nat} (h : buf'.take q = buf.take q)
    (hq : pos + (cstrAt buf pos).length < q) : cstrAt buf' pos = cstrAt buf pos := by
  refine takeWhile_congr_take (k := q - pos) ?_ (by rw [← cstrAt]; omega)
  rw [← List.drop_take, ← List.drop_take, h]

/-! ## 3. `strtok_r` -/

/-- `strtok_r` with the separator `sep`, from the remembered position: the position of the token
(`none` is NULL), the buffer, and the position to go on from. -/
def strtokR (sep : UInt8) (buf : List UInt8) (pos : Nat) : Option Nat × List UInt8 × Nat :=
  let start := pos + ((cstrAt buf pos).takeWhile (· = sep)).length
  let token := (cstrAt buf start).takeWhile (· ≠ sep)
  let stop := start + token.length
  if token = [] then (none, buf, start)
  else if cstrAt buf stop = [] then (some start, buf, stop)
  else (some start, buf.set stop 0, stop + 1)

/-- A string that does not start with a separator has an empty token only if it is empty. -/
theorem fields_of_token_nil {sep : UInt8} {rest : List UInt8}
    (hrest : rest = rest.dropWhile (· = sep)) (h : rest.takeWhile (· ≠ sep) = []) :
    fields sep rest = [] := by
  cases rest with
  | nil => rfl
  | cons b l =>
    by_cases hb : b = sep
    · rw [List.dropWhile_cons_of_pos (by simpa using hb)] at hrest
      have hlen := congrArg List.length hrest
      have hle := (List.dropWhile_suffix (l := l) (fun x => decide (x = sep))).length_le
      rw [List.length_cons] at hlen
      omega
    · rw [List.takeWhile_cons_of_pos (by simpa using hb)] at h
      cases h

/-- **One call**: NULL if no field is left; otherwise the token is the first field, the string to go
on from has the others, and it is shorter. -/
theorem strtokR_spec (sep : UInt8) (buf : List UInt8) (pos : Nat) :
    (fields sep (cstrAt buf pos) = [] ∧ (strtokR sep buf pos).1 = none) ∨
      ∃ token buf' pos', strtokR sep buf pos = (some token, buf', pos') ∧
        fields sep (cstrAt buf pos) = cstrAt buf' token :: fields sep (cstrAt buf' pos') ∧
        (cstrAt buf' pos').length < (cstrAt buf pos).length := by
  unfold strtokR
  dsimp only
  generalize hstart : pos + ((cstrAt buf pos).takeWhile (· = sep)).length = start
  have hrest : cstrAt buf start = (cstrAt buf pos).dropWhile (· = sep) := by
    rw [← hstart, cstrAt_past]
  have hfields : fields sep (cstrAt buf pos) = fields sep (cstrAt buf start) := by
    rw [hrest, fields_dropWhile]
  have hlen : (cstrAt buf start).length ≤ (cstrAt buf pos).length := by
    rw [hrest]
    exact (List.dropWhile_suffix _).length_le
  have hstop := cstrAt_past (· ≠ sep) buf start
  have hcons : (cstrAt buf start).takeWhile (· ≠ sep) ≠ [] → fields sep (cstrAt buf start) =
      (cstrAt buf start).takeWhile (· ≠ sep) ::
        fields sep ((cstrAt buf start).dropWhile (· ≠ sep)).tail := fields_eq_cons
  have hsplit := List.takeWhile_append_dropWhile (p := (· ≠ sep)) (l := cstrAt buf start)
  have hnil : (cstrAt buf start).takeWhile (· ≠ sep) = [] → fields sep (cstrAt buf start) = [] :=
    fields_of_token_nil (by rw [hrest, List.dropWhile_idempotent])
  rw [← hstop] at hsplit hcons
  generalize (cstrAt buf start).takeWhile (· ≠ sep) = token at hsplit hcons hnil ⊢
  have hlength : token.length + (cstrAt buf (start + token.length)).length =
      (cstrAt buf start).length := by
    rw [← List.length_append, hsplit]
  split_ifs with hempty hend
  · exact Or.inl ⟨hfields.trans (hnil hempty), rfl⟩
  · -- the last field: the string at `start` is the token
    rw [hend, List.append_nil] at hsplit
    refine Or.inr ⟨start, buf, start + token.length, rfl, ?_, ?_⟩
    · rw [hfields, hcons hempty, hend, hsplit]
      rfl
    · have hpos : 0 < token.length := List.length_pos_iff.mpr hempty
      omega
  · have hpos : 0 < (cstrAt buf (start + token.length)).length := List.length_pos_iff.mpr hend
    have hnext : cstrAt (buf.set (start + token.length) 0) (start + token.length + 1) =
        (cstrAt buf (start + token.length)).tail := by
      rw [cstrAt_set_lt (Nat.lt_succ_self _), cstrAt_add hpos, List.drop_one]
    refine Or.inr ⟨start, _, _, rfl, ?_, ?_⟩
    · rw [hfields, hcons hempty, hnext, cstrAt_set (by omega)]
      conv_rhs => rw [← hsplit]
      rw [List.take_left]
    · rw [hnext, List.length_tail]
      omega

end JarvOs.Lib
