/-
# From scancodes to characters (`hal_keyboard_getchar` in `kernel/drivers/keyboard.c`)

The scancodes are those `hal_keyboard_read_scancode` returns, one after the other; how they get there is
the subject of `Drivers.Keyboard`.  A call of `hal_keyboard_getchar` reads scancodes until one of them
gives a character.  Between calls it remembers `caps_lock_on` and `shift_pressed`: ONE flag for the two
shift keys.  The make code of either sets it, the break code of either clears it.

The reference decoder has no state: what a key means is said by the scancodes seen so far.  A shift key
is held down if its last code was its make code, shift is active if one of them is held down, and caps
lock is on after an odd number of its make codes.  The flag is never set without a key being held
(`shiftActive_of_lastShiftMake`), but it is cleared while the other key is.  `modifier_tracking_iff` is
the exact condition: the characters are the right ones unless a key whose character depends on shift is
pressed while a shift key is held and the last shift code was a release.
-/
import JarvOs.Lib.Transducer

namespace JarvOs.Drivers.Decoder

open JarvOs.Lib

/-! ## 1. The code -/

/-- A case of the `switch`: `c = shift_pressed ? shifted : plain; break;`, `c = letter; break;` or
`return c;`. -/
inductive SwitchCase
  | either (shifted plain : Char)
  | letter (c : Char)
  | direct (c : Char)
deriving DecidableEq, Repr

/-- The cases of the `switch`; `default` is `continue`. -/
def switchTable : List (UInt8 × SwitchCase) :=
  [(0x02, .either '!' '1'), (0x03, .either '@' '2'), (0x04, .either '#' '3'),
   (0x05, .either '$' '4'), (0x06, .either '%' '5'), (0x07, .either '^' '6'),
   (0x08, .either '&' '7'), (0x09, .either '*' '8'), (0x0A, .either '(' '9'),
   (0x0B, .either ')' '0'), (0x0C, .either '_' '-'), (0x0D, .either '+' '='),
   (0x0E, .direct '\x08'), (0x0F, .direct '\t'),
   (0x10, .letter 'q'), (0x11, .letter 'w'), (0x12, .letter 'e'), (0x13, .letter 'r'),
   (0x14, .letter 't'), (0x15, .letter 'y'), (0x16, .letter 'u'), (0x17, .letter 'i'),
   (0x18, .letter 'o'), (0x19, .letter 'p'),
   (0x1A, .either '\x7b' '['), (0x1B, .either '\x7d' ']'), (0x1C, .direct '\n'),
   (0x1E, .letter 'a'), (0x1F, .letter 's'), (0x20, .letter 'd'), (0x21, .letter 'f'),
   (0x22, .letter 'g'), (0x23, .letter 'h'), (0x24, .letter 'j'), (0x25, .letter 'k'),
   (0x26, .letter 'l'), (0x27, .either ':' ';'), (0x28, .either '\x22' '\x27'),
   (0x29, .either '~' '\x60'), (0x2B, .either '|' '\x5c'),
   (0x2C, .letter 'z'), (0x2D, .letter 'x'), (0x2E, .letter 'c'), (0x2F, .letter 'v'),
   (0x30, .letter 'b'), (0x31, .letter 'n'), (0x32, .letter 'm'),
   (0x33, .either '<' ','), (0x34, .either '>' '.'), (0x35, .either '?' '/'),
   (0x39, .direct ' ')]

/-- `shift_pressed` and `caps_lock_on` -/
structure Modifiers where
  shiftPressed : Bool
  capsLockOn : Bool
deriving DecidableEq, Repr

/-- The end of the loop body: the case of letters. -/
def applyCase (m : Modifiers) (c : Char) : Char :=
  if 'a' ≤ c ∧ c ≤ 'z' then
    if m.capsLockOn ^^ m.shiftPressed then Char.ofNat (c.toNat - 32) else c
  else c

/-- The loop body: the flags, and the character if it returns one. -/
def onScancode (m : Modifiers) (scancode : UInt8) : Modifiers × Option Char :=
  if scancode = 0x2A ∨ scancode = 0x36 then ({ m with shiftPressed := true }, none)
  else if scancode = 0xAA ∨ scancode = 0xB6 then ({ m with shiftPressed := false }, none)
  else if scancode = 0x3A then ({ m with capsLockOn := !m.capsLockOn }, none)
  else if scancode &&& 0x80 ≠ 0 then (m, none)
  else
    match switchTable.lookup scancode with
    | none => (m, none)
    | some (.direct c) => (m, some c)
    | some (.letter c) => (m, some (applyCase m c))
    | some (.either shifted plain) =>
      (m, some (applyCase m (if m.shiftPressed then shifted else plain)))

/-- The loop of `hal_keyboard_getchar`. -/
def decoder : Transducer Modifiers UInt8 Char where
  step m scancode := (onScancode m scancode).1
  output m scancode := (onScancode m scancode).2

/-- `hal_keyboard_getchar`, when these scancodes are read: the character, the flags, and the scancodes
that are left.  With `none` it waits. -/
def halKeyboardGetchar (m : Modifiers) (scancodes : List UInt8) :
    Option (Char × Modifiers × List UInt8) := decoder.next m scancodes

/-- The flags as they are initialised. -/
def boot : Modifiers := ⟨false, false⟩

/-- What `n` successive calls return. -/
def getchars (n : Nat) (scancodes : List UInt8) : List Char := decoder.firsts n boot scancodes

/-! ## 2. The reference decoder -/

/-- The last code seen for a key was its make code. -/
def HeldDown (make release : UInt8) (seen : List UInt8) : Prop :=
  (seen.filter (fun c => c = make ∨ c = release)).getLast? = some make

instance (make release : UInt8) (seen : List UInt8) : Decidable (HeldDown make release seen) :=
  inferInstanceAs (Decidable (_ = _))

/-- One of the two shift keys is held down. -/
def ShiftActive (seen : List UInt8) : Prop := HeldDown 0x2A 0xAA seen ∨ HeldDown 0x36 0xB6 seen

instance (seen : List UInt8) : Decidable (ShiftActive seen) := inferInstanceAs (Decidable (_ ∨ _))

/-- Caps lock has been pressed an odd number of times. -/
def CapsLock (seen : List UInt8) : Prop := seen.count 0x3A % 2 = 1

instance (seen : List UInt8) : Decidable (CapsLock seen) := inferInstanceAs (Decidable (_ = _))

/-- The character of a key. -/
def SwitchCase.char (shift caps : Bool) : SwitchCase → Char
  | .either shifted plain => if shift then shifted else plain
  | .letter c => if caps ^^ shift then c.toUpper else c
  | .direct c => c

/-- The decoder that remembers what it has seen. -/
def reference : Transducer (List UInt8) UInt8 Char where
  step seen scancode := seen ++ [scancode]
  output seen scancode :=
    (switchTable.lookup scancode).map (SwitchCase.char (ShiftActive seen) (CapsLock seen))

def SwitchCase.isDirect : SwitchCase → Bool
  | .direct _ => true
  | _ => false

/-- A key whose character depends on shift. -/
def ShiftSensitive (scancode : UInt8) : Prop :=
  ∃ k, switchTable.lookup scancode = some k ∧ k.isDirect = false

/-- The last code of a shift key was a make code. -/
def LastShiftMake (seen : List UInt8) : Prop :=
  (seen.filter (fun c => c = 0x2A ∨ c = 0x36 ∨ c = 0xAA ∨ c = 0xB6)).getLast? ∈
    [some 0x2A, some 0x36]

instance (seen : List UInt8) : Decidable (LastShiftMake seen) :=
  inferInstanceAs (Decidable (_ ∈ _))

/-! ## 3. The flags -/

section LastOf

variable {α : Type} {p q : α → Bool} {l : List α} {a : α}

theorem getLast?_filter_concat (l : List α) (a : α) :
    ((l ++ [a]).filter p).getLast? = if p a then some a else (l.filter p).getLast? := by
  rw [List.filter_append]
  by_cases ha : p a
  · simp [ha]
  · simp [ha]

/-- What was last among more is last among fewer. -/
theorem getLast?_filter_of_imp (hpq : ∀ b, q b → p b) (hlast : (l.filter p).getLast? = some a)
    (ha : q a) : (l.filter q).getLast? = some a := by
  obtain ⟨ys, hys⟩ := List.getLast?_eq_some_iff.mp hlast
  have hsub : l.filter q = (l.filter p).filter q := by
    rw [List.filter_filter]
    refine List.filter_congr (fun b _ => ?_)
    by_cases hb : q b
    · simp [hb, hpq b hb]
    · simp [hb]
  rw [hsub, hys, getLast?_filter_concat, if_pos ha]

end LastOf

/-- If the last shift code was a make code, then that key is held down. -/
theorem shiftActive_of_lastShiftMake {seen : List UInt8} (h : LastShiftMake seen) :
    ShiftActive seen := by
  simp only [LastShiftMake, List.mem_cons, List.not_mem_nil, or_false] at h
  rcases h with h | h
  · refine Or.inl (getLast?_filter_of_imp (fun b hb => ?_) h (by decide))
    rcases of_decide_eq_true hb with rfl | rfl <;> decide
  · refine Or.inr (getLast?_filter_of_imp (fun b hb => ?_) h (by decide))
    rcases of_decide_eq_true hb with rfl | rfl <;> decide

theorem lastShiftMake_concat (seen : List UInt8) (c : UInt8) :
    LastShiftMake (seen ++ [c]) ↔
      if c = 0x2A ∨ c = 0x36 then True else if c = 0xAA ∨ c = 0xB6 then False
      else LastShiftMake seen := by
  rw [LastShiftMake, getLast?_filter_concat, LastShiftMake]
  split_ifs <;> simp_all

theorem capsLock_concat (seen : List UInt8) (c : UInt8) :
    CapsLock (seen ++ [c]) ↔ if c = 0x3A then ¬ CapsLock seen else CapsLock seen := by
  rw [CapsLock, List.count_append, CapsLock]
  split_ifs with hc
  · subst hc
    rw [List.count_singleton_self]
    omega
  · rw [List.count_singleton, if_neg (by simpa using hc), Nat.add_zero]

/-- What a scancode does to the flags. -/
theorem onScancode_flags (m : Modifiers) (c : UInt8) :
    (onScancode m c).1 =
      ⟨if c = 0x2A ∨ c = 0x36 then true else if c = 0xAA ∨ c = 0xB6 then false else m.shiftPressed,
        if c = 0x3A then !m.capsLockOn else m.capsLockOn⟩ := by
  unfold onScancode
  split_ifs with hmake hcaps hbreak hcaps hcaps hcode
  · rcases hmake with rfl | rfl <;> exact absurd hcaps (by decide)
  · rfl
  · rcases hbreak with rfl | rfl <;> exact absurd hcaps (by decide)
  · rfl
  · rfl
  · rfl
  · split <;> rfl
  · split <;> rfl

/-- **What the flags stand for.** -/
theorem after_boot (seen : List UInt8) :
    decoder.after boot seen = ⟨LastShiftMake seen, CapsLock seen⟩ := by
  induction seen using List.reverseRecOn with
  | nil => rfl
  | append_singleton seen c ih =>
    rw [decoder.after_concat, ih]
    simp only [decoder, onScancode_flags, lastShiftMake_concat, capsLock_concat, Modifiers.mk.injEq]
    constructor
    · split_ifs <;> simp
    · split_ifs <;> simp

/-! ## 4. The characters -/

theorem onScancode_table : ∀ e ∈ switchTable, ∀ shift caps,
    (onScancode ⟨shift, caps⟩ e.1).2 = some (e.2.char shift caps) := by decide +kernel

/-- Every case but those that return at once depends on shift. -/
theorem char_table : ∀ e ∈ switchTable, ∀ caps,
    e.2.char true caps = e.2.char false caps ↔ e.2.isDirect = true := by decide +kernel

theorem mem_of_lookup {c : UInt8} {k : SwitchCase} (h : switchTable.lookup c = some k) :
    (c, k) ∈ switchTable := by
  obtain ⟨front, back, heq, -⟩ := List.lookup_eq_some_iff.mp h
  rw [heq]
  exact List.mem_append_right front List.mem_cons_self

/-- Behind the tests in front of the `switch`, it decides by its table alone. -/
theorem decoder_output (m : Modifiers) (c : UInt8) :
    decoder.output m c = (switchTable.lookup c).map (SwitchCase.char m.shiftPressed m.capsLockOn) := by
  cases hk : switchTable.lookup c with
  | none =>
    simp only [decoder, onScancode, hk]
    split_ifs <;> rfl
  | some k => exact onScancode_table (c, k) (mem_of_lookup hk) _ _

/-- **One symbol**: the two decoders answer alike unless shift matters and the flag is not what it should
be. -/
theorem output_eq_iff (seen : List UInt8) (c : UInt8) :
    decoder.output (decoder.after boot seen) c = reference.output seen c ↔
      (ShiftSensitive c → ShiftActive seen → LastShiftMake seen) := by
  rw [decoder_output, after_boot]
  simp only [reference]
  cases hk : switchTable.lookup c with
  | none => simp [ShiftSensitive, hk]
  | some k =>
    have hsensitive : ShiftSensitive c ↔ ¬ k.isDirect = true := by
      simp [ShiftSensitive, hk]
    rw [Option.map_some, Option.map_some, Option.some.injEq, hsensitive,
      ← char_table (c, k) (mem_of_lookup hk) (CapsLock seen)]
    by_cases hmake : LastShiftMake seen
    · simp [hmake, shiftActive_of_lastShiftMake hmake]
    · by_cases hactive : ShiftActive seen
      · simp [hmake, hactive, eq_comm]
      · simp [hmake, hactive]

/-- The reference decoder's memory. -/
theorem reference_after (seen codes : List UInt8) : reference.after seen codes = seen ++ codes := by
  induction codes generalizing seen with
  | nil => exact (List.append_nil seen).symm
  | cons c codes ih =>
    rw [Transducer.after, List.foldl_cons]
    exact (ih _).trans (List.append_assoc seen [c] codes)

/-- **Modifier tracking.**  For every sequence of scancodes, the characters that successive calls of
`hal_keyboard_getchar` return are those of the reference decoder exactly if no key whose character
depends on shift is pressed while a shift key is held down but the last shift code was a release. -/
theorem modifier_tracking_iff (codes : List UInt8) :
    (∀ n, getchars n codes = (reference.run [] codes).take n) ↔
      ∀ seen c rest, codes = seen ++ c :: rest → ShiftSensitive c → ShiftActive seen →
        LastShiftMake seen := by
  have hruns : (∀ n, getchars n codes = (reference.run [] codes).take n) ↔
      decoder.run boot codes = reference.run [] codes := by
    simp only [getchars, Transducer.firsts_eq_take]
    constructor
    · intro h
      have hall := h (max (decoder.run boot codes).length (reference.run [] codes).length)
      rwa [List.take_of_length_le (le_max_left _ _), List.take_of_length_le (le_max_right _ _)] at hall
    · intro h n
      rw [h]
  rw [hruns, Transducer.run_eq_iff]
  · simp only [reference_after, List.nil_append, output_eq_iff]
  · intro seen c
    rw [decoder_output]
    simp [reference]

/-- **Both shift keys down, the left one released, `a`**: the right one is still held. -/
theorem shift_release_forgets_other :
    getchars 1 [0x2A, 0x36, 0xAA, 0x1E] = ['a'] ∧
      reference.run [] [0x2A, 0x36, 0xAA, 0x1E] = ['A'] := by decide +kernel

end JarvOs.Drivers.Decoder
