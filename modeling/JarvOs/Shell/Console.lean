/-
# The text console (`vga_putchar` and its callers in `kernel/main.c`)

The screen is 4000 bytes of memory at 0xB8000, two for each of 25 * 80 places: a character and an
attribute.  `vga_index` is where the next character goes; after every character the controller is told to
draw its cursor there, in two registers of one byte behind the ports 0x3D4 and 0x3D5.

`Screen` is what that stands for: 2000 cells and a cursor that is one of them.  The screen is closed in on
itself: behind the last place comes the first, behind the last line the first, and nothing is cleared
there.  The kernel's own output never leaves it (`console_refines`): no byte outside the 4000 is written,
and the cursor that is drawn is where the next character goes.
-/
import JarvOs.Lib.Hex
import JarvOs.Shell.Dispatch

namespace JarvOs.Shell

open JarvOs.Lib

/-! ## 1. The code -/

/-- `vga_index`, memory, and the CRT controller: the register that is selected, and all of them. -/
structure Console where
  vgaIndex : Nat
  mem : Nat → UInt8
  crtcIndex : UInt8
  crtc : UInt8 → UInt8

/-- `outb`, as far as the controller is concerned. -/
def Console.outb (s : Console) (port : Nat) (val : UInt8) : Console :=
  if port = 0x3D4 then { s with crtcIndex := val }
  else if port = 0x3D5 then { s with crtc := Function.update s.crtc s.crtcIndex val }
  else s

/-- `vga[i] = val`, where `vga` is 0xB8000. -/
def Console.poke (s : Console) (i : Nat) (val : UInt8) : Console :=
  { s with mem := Function.update s.mem (0xB8000 + i) val }

/-- `update_cursor` -/
def updateCursor (s : Console) (pos : Nat) : Console :=
  let s := s.outb 0x3D4 0x0F
  let s := s.outb 0x3D5 (UInt8.ofNat (pos &&& 0xFF))
  let s := s.outb 0x3D4 0x0E
  s.outb 0x3D5 (UInt8.ofNat ((pos >>> 8) &&& 0xFF))

/-- `'\n'` -/
abbrev newline : UInt8 := 0x0A

/-- `'\b'` -/
abbrev backspace : UInt8 := 0x08

/-- The character and its attribute. -/
def Console.putCell (s : Console) (i : Nat) (c : UInt8) : Console :=
  (s.poke (i * 2) c).poke (i * 2 + 1) 0x0F

/-- `vga_putchar` up to `update_cursor`. -/
def placeChar (s : Console) (c : UInt8) : Console :=
  if c = newline then
    let nextLineStart := (s.vgaIndex / 80 + 1) * 80
    if nextLineStart ≥ 80 * 25 then { s with vgaIndex := 0 }
    else { s with vgaIndex := nextLineStart }
  else if c = backspace then
    if s.vgaIndex > 0 then
      let s := { s with vgaIndex := s.vgaIndex - 1 }
      s.putCell s.vgaIndex space
    else s
  else
    let s := s.putCell s.vgaIndex c
    let s := { s with vgaIndex := s.vgaIndex + 1 }
    if s.vgaIndex ≥ 80 * 25 then { s with vgaIndex := 0 } else s

/-- `vga_putchar` -/
def vgaPutchar (s : Console) (c : UInt8) : Console :=
  let s := placeChar s c
  updateCursor s s.vgaIndex

/-- `vga_puts`, for the bytes in front of the NUL. -/
def vgaPuts (s : Console) (str : List UInt8) : Console := str.foldl vgaPutchar s

/-- `vga_puthex` -/
def vgaPuthex (s : Console) (num : BitVec 32) : Console :=
  let s := vgaPuts s (literal "0x")
  [28, 24, 20, 16, 12, 8, 4, 0].foldl
    (fun s (i : Nat) => vgaPutchar s ((literal "0123456789ABCDEF").getD ((num >>> i) &&& 0xF#32).toNat 0)) s

/-! ## 2. The screen -/

/-- The places of the screen. -/
abbrev Place := Fin 2000

/-- A character and its attribute in every place, and the cursor. -/
structure Screen where
  cell : Place → UInt8 × UInt8
  cursor : Place

/-- The place behind this one. -/
def nextPlace (i : Place) : Place := ⟨(i.val + 1) % 2000, Nat.mod_lt _ (by decide)⟩

/-- The first place of the line behind this one. -/
def nextLine (i : Place) : Place := ⟨(i.val / 80 + 1) % 25 * 80, by omega⟩

/-- A character at the cursor. -/
def Screen.type (t : Screen) (c : UInt8) : Screen where
  cell := Function.update t.cell t.cursor (c, 0x0F)
  cursor := nextPlace t.cursor

/-- Back to the place before, which becomes empty; nothing at the first place. -/
def Screen.erase (t : Screen) : Screen :=
  if t.cursor.val = 0 then t
  else
    let i : Place := ⟨t.cursor.val - 1, by omega⟩
    ⟨Function.update t.cell i (space, 0x0F), i⟩

/-- What a character does. -/
def Screen.put (t : Screen) (c : UInt8) : Screen :=
  if c = newline then { t with cursor := nextLine t.cursor }
  else if c = backspace then t.erase
  else t.type c

/-- What a text does. -/
def Screen.print (t : Screen) (str : List UInt8) : Screen := str.foldl Screen.put t

/-- The controller's cursor. -/
def Console.drawnAt (s : Console) : Nat := 256 * (s.crtc 0x0E).toNat + (s.crtc 0x0F).toNat

/-- The console shows a screen. -/
structure Shows (s : Console) (t : Screen) : Prop where
  index : s.vgaIndex = t.cursor.val
  cell : ∀ i : Place, (s.mem (0xB8000 + i.val * 2), s.mem (0xB8000 + (i.val * 2 + 1))) = t.cell i

/-- The 4000 bytes. -/
def OnScreen (a : Nat) : Prop := 0xB8000 ≤ a ∧ a < 0xB8000 + 4000

/-! ## 3. One character -/

variable {s : Console} {t : Screen}

theorem updateCursor_index (s : Console) (pos : Nat) : (updateCursor s pos).vgaIndex = s.vgaIndex := rfl

theorem updateCursor_mem (s : Console) (pos : Nat) : (updateCursor s pos).mem = s.mem := rfl

/-- **The cursor that is drawn.** -/
theorem updateCursor_drawnAt (s : Console) {pos : Nat} (h : pos < 2 ^ 16) :
    (updateCursor s pos).drawnAt = pos := by
  have hlow : pos &&& 0xFF = pos % 2 ^ 8 := Nat.and_two_pow_sub_one_eq_mod pos 8
  have hhigh : (pos >>> 8) &&& 0xFF = pos / 2 ^ 8 % 2 ^ 8 := by
    rw [Nat.shiftRight_eq_div_pow]
    exact Nat.and_two_pow_sub_one_eq_mod _ 8
  simp only [Console.drawnAt, updateCursor, Console.outb, hlow, hhigh]
  simp
  omega

theorem putCell_mem (s : Console) (i : Nat) (c : UInt8) (a : Nat) :
    (s.putCell i c).mem a =
      if a = 0xB8000 + (i * 2 + 1) then 0x0F else if a = 0xB8000 + i * 2 then c else s.mem a := by
  simp only [Console.putCell, Console.poke, Function.update_apply]

theorem putCell_off {i a : Nat} (c : UInt8) (hi : i < 2000) (ha : ¬ OnScreen a) :
    (s.putCell i c).mem a = s.mem a := by
  simp only [OnScreen] at ha
  rw [putCell_mem, if_neg (by omega), if_neg (by omega)]

theorem putCell_cell (h : Shows s t) (i : Place) (c : UInt8) (j : Place) :
    ((s.putCell i c).mem (0xB8000 + j.val * 2), (s.putCell i c).mem (0xB8000 + (j.val * 2 + 1))) =
      Function.update t.cell i (c, 0x0F) j := by
  rw [putCell_mem, putCell_mem, if_neg (by omega)]
  rcases eq_or_ne j i with rfl | hj
  · rw [if_pos rfl, if_pos rfl, Function.update_self]
  · have hne : j.val ≠ i.val := fun heq => hj (Fin.ext heq)
    rw [if_neg (by omega), if_neg (by omega), if_neg (by omega), Function.update_of_ne hj]
    exact h.cell j

/-- **One character**: the console does what the screen does, and writes nowhere else. -/
theorem placeChar_spec (h : Shows s t) (c : UInt8) :
    Shows (placeChar s c) (t.put c) ∧ ∀ a, ¬ OnScreen a → (placeChar s c).mem a = s.mem a := by
  have hlt := t.cursor.isLt
  have hindex := h.index
  rw [placeChar, Screen.put]
  by_cases hnl : c = newline
  · simp only [if_pos hnl]
    -- the last line is left for the first one
    by_cases hlast : (s.vgaIndex / 80 + 1) * 80 ≥ 80 * 25
    · rw [if_pos hlast]
      refine ⟨⟨?_, h.cell⟩, fun a _ => rfl⟩
      simp only [nextLine]
      omega
    · rw [if_neg hlast]
      refine ⟨⟨?_, h.cell⟩, fun a _ => rfl⟩
      simp only [nextLine]
      omega
  · simp only [if_neg hnl]
    by_cases hbs : c = backspace
    · simp only [if_pos hbs, Screen.erase]
      by_cases h0 : t.cursor.val = 0
      · rw [if_neg (by omega), if_pos h0]
        exact ⟨h, fun a _ => rfl⟩
      · rw [if_pos (by omega), if_neg h0]
        refine ⟨⟨?_, fun j => ?_⟩, fun a ha => putCell_off _ (by omega) ha⟩
        · simp only [Console.putCell, Console.poke]
          omega
        · simp only [hindex]
          exact putCell_cell (s := { s with vgaIndex := t.cursor.val - 1 }) (t := { t with
            cursor := ⟨t.cursor.val - 1, by omega⟩ }) ⟨rfl, h.cell⟩ ⟨t.cursor.val - 1, by omega⟩ space j
    · simp only [if_neg hbs, Screen.type]
      have hcell := putCell_cell h t.cursor c
      have hoff : ∀ a, ¬ OnScreen a → (s.putCell s.vgaIndex c).mem a = s.mem a :=
        fun a ha => putCell_off c (by omega) ha
      rw [← hindex] at hcell
      have hkeep : (s.putCell s.vgaIndex c).vgaIndex = s.vgaIndex := rfl
      rw [hkeep]
      by_cases hend : s.vgaIndex + 1 ≥ 80 * 25
      · rw [if_pos hend]
        refine ⟨⟨?_, hcell⟩, hoff⟩
        simp only [nextPlace]
        omega
      · rw [if_neg hend]
        refine ⟨⟨?_, hcell⟩, hoff⟩
        simp only [nextPlace]
        omega

theorem vgaPutchar_spec (h : Shows s t) (c : UInt8) :
    Shows (vgaPutchar s c) (t.put c) ∧ (vgaPutchar s c).drawnAt = (t.put c).cursor.val ∧
      ∀ a, ¬ OnScreen a → (vgaPutchar s c).mem a = s.mem a := by
  obtain ⟨hshows, hoff⟩ := placeChar_spec h c
  have hlt := (t.put c).cursor.isLt
  refine ⟨⟨hshows.index, hshows.cell⟩, ?_, hoff⟩
  rw [vgaPutchar, updateCursor_drawnAt _ (by rw [hshows.index]; omega), hshows.index]

/-! ## 4. Output -/

/-- The calls by which the kernel writes on its console. -/
inductive Output
  | putchar (c : UInt8)
  | puts (str : List UInt8)
  | puthex (num : BitVec 32)
deriving DecidableEq

def Output.perform (s : Console) : Output → Console
  | .putchar c => vgaPutchar s c
  | .puts str => vgaPuts s str
  | .puthex num => vgaPuthex s num

/-- The characters of a call. -/
def Output.text : Output → List UInt8
  | .putchar c => [c]
  | .puts str => str
  | .puthex num => literal "0x" ++ hexWord num

/-- The characters of some calls. -/
def texts (os : List Output) : List UInt8 := os.flatMap Output.text

theorem hexTable_getD : ∀ d : Fin 16, (literal "0123456789ABCDEF").getD d 0 = hexDigit d := by decide

theorem vgaPuthex_eq (s : Console) (num : BitVec 32) :
    vgaPuthex s num = vgaPuts s (literal "0x" ++ hexWord num) := by
  have hdigit : ∀ i, (literal "0123456789ABCDEF").getD (nibble num i) 0 = hexDigit (nibble num i) :=
    fun i => hexTable_getD ⟨nibble num i, nibble_lt num i⟩
  rw [vgaPuts, List.foldl_append, hexWord, List.foldl_map]
  simp only [← hdigit]
  rfl

/-- Every call is its characters, one after the other. -/
theorem perform_eq (s : Console) (o : Output) : o.perform s = vgaPuts s o.text := by
  cases o with
  | putchar c => rfl
  | puts str => rfl
  | puthex num => exact vgaPuthex_eq s num

theorem performs_eq (s : Console) (os : List Output) : os.foldl Output.perform s = vgaPuts s (texts os) := by
  induction os generalizing s with
  | nil => rfl
  | cons o os ih =>
    have hsplit : texts (o :: os) = o.text ++ texts os := List.flatMap_cons
    rw [List.foldl_cons, ih, perform_eq, hsplit, vgaPuts, vgaPuts, vgaPuts, List.foldl_append]

/-- **A text**: the console does what the screen does, and writes nowhere else. -/
theorem vgaPuts_spec (str : List UInt8) (h : Shows s t) :
    Shows (vgaPuts s str) (t.print str) ∧
      (str ≠ [] → (vgaPuts s str).drawnAt = (t.print str).cursor.val) ∧
      ∀ a, ¬ OnScreen a → (vgaPuts s str).mem a = s.mem a := by
  induction str using List.reverseRecOn with
  | nil => exact ⟨h, fun hne => absurd rfl hne, fun a _ => rfl⟩
  | append_singleton str c ih =>
    obtain ⟨hshows, -, hoff⟩ := ih
    obtain ⟨hshows', hdrawn, hoff'⟩ := vgaPutchar_spec hshows c
    rw [vgaPuts, Screen.print, List.foldl_append, List.foldl_append]
    exact ⟨hshows', fun _ => hdrawn, fun a ha => (hoff' a ha).trans (hoff a ha)⟩

/-- The screen that is in memory, with the cursor where `vga_index` starts. -/
def screenOf (mem : Nat → UInt8) : Screen where
  cell i := (mem (0xB8000 + i.val * 2), mem (0xB8000 + (i.val * 2 + 1)))
  cursor := ⟨0, by decide⟩

/-- **The console is the screen.**  Whatever the kernel prints, from whatever was in memory and in the
controller: memory shows what the screen of its characters shows, the cursor is drawn where the next
character goes, and nothing outside the screen is written. -/
theorem console_refines (mem : Nat → UInt8) (crtcIndex : UInt8) (crtc : UInt8 → UInt8) (os : List Output) :
    Shows (os.foldl Output.perform ⟨0, mem, crtcIndex, crtc⟩) ((screenOf mem).print (texts os)) ∧
    (texts os ≠ [] → (os.foldl Output.perform ⟨0, mem, crtcIndex, crtc⟩).drawnAt =
      ((screenOf mem).print (texts os)).cursor.val) ∧
    ∀ a, ¬ OnScreen a → (os.foldl Output.perform ⟨0, mem, crtcIndex, crtc⟩).mem a = mem a := by
  rw [performs_eq]
  exact vgaPuts_spec (texts os) ⟨rfl, fun _ => rfl⟩

/-! ## 5. Text on the screen -/

/-- The places from `i` on hold a text. -/
def Screen.Reads (t : Screen) (i : Nat) (str : List UInt8) : Prop :=
  ∀ k c, str[k]? = some c → ∃ h : i + k < 2000, t.cell ⟨i + k, h⟩ = (c, 0x0F)

variable {i : Nat} {str : List UInt8} {c : UInt8}

/-- A character at the end of a text. -/
theorem reads_type (h : t.Reads i str) (hcur : t.cursor.val = i + str.length)
    (hfit : i + str.length + 1 < 2000) :
    (t.type c).Reads i (str ++ [c]) ∧ (t.type c).cursor.val = i + (str ++ [c]).length := by
  refine ⟨fun k d hk => ?_, ?_⟩
  · rcases Nat.lt_or_ge k str.length with hlt | hge
    · rw [List.getElem?_append_left hlt] at hk
      obtain ⟨hp, hcell⟩ := h k d hk
      have hne : (⟨i + k, hp⟩ : Place) ≠ t.cursor := fun heq => by
        have := congrArg Fin.val heq
        simp only at this
        omega
      exact ⟨hp, (Function.update_of_ne hne _ _).trans hcell⟩
    · obtain ⟨hk', rfl⟩ : k = str.length ∧ d = c := by
        rw [List.getElem?_append_right hge] at hk
        have hlen := (List.getElem?_eq_some_iff.mp hk).1
        simp only [List.length_cons, List.length_nil] at hlen
        have hzero : k - str.length = 0 := by omega
        rw [hzero] at hk
        simp only [List.getElem?_cons_zero, Option.some.injEq] at hk
        exact ⟨by omega, hk.symm⟩
      have heq : t.cursor = ⟨i + k, by omega⟩ := Fin.ext (by simp only; omega)
      refine ⟨by omega, ?_⟩
      simp only [Screen.type, heq, Function.update_self]
  · simp only [Screen.type, nextPlace, hcur, List.length_append, List.length_cons, List.length_nil]
    omega

/-- The last character of a text, erased. -/
theorem reads_erase (h : t.Reads i (str ++ [c])) (hcur : t.cursor.val = i + (str ++ [c]).length) :
    t.erase.Reads i str ∧ t.erase.cursor.val = i + str.length := by
  simp only [List.length_append, List.length_cons, List.length_nil] at hcur
  rw [Screen.erase, if_neg (by omega)]
  refine ⟨fun k d hk => ?_, by simp only; omega⟩
  have hlt := (List.getElem?_eq_some_iff.mp hk).1
  obtain ⟨hp, hcell⟩ := h k d (by rwa [List.getElem?_append_left hlt])
  have hne : (⟨i + k, hp⟩ : Place) ≠ ⟨t.cursor.val - 1, by omega⟩ := fun heq => by
    have := congrArg Fin.val heq
    simp only at this
    omega
  exact ⟨hp, (Function.update_of_ne hne _ _).trans hcell⟩

/-- A text without control characters, behind another one. -/
theorem reads_print : ∀ {more str : List UInt8} {t : Screen}, t.Reads i str →
    t.cursor.val = i + str.length → i + str.length + more.length < 2000 →
    (∀ c ∈ more, c ≠ newline ∧ c ≠ backspace) →
    (t.print more).Reads i (str ++ more) ∧ (t.print more).cursor.val = i + (str ++ more).length
  | [], str, t, h, hcur, _, _ => by
    rw [List.append_nil]
    exact ⟨h, hcur⟩
  | c :: more, str, t, h, hcur, hfit, hplain => by
    obtain ⟨hnl, hbs⟩ := hplain c List.mem_cons_self
    have hput : t.put c = t.type c := by rw [Screen.put, if_neg hnl, if_neg hbs]
    rw [List.length_cons] at hfit
    obtain ⟨hreads, hcur'⟩ := reads_type h hcur (c := c) (by omega)
    have hlen : (str ++ [c]).length = str.length + 1 := by simp
    rw [Screen.print, List.foldl_cons, hput, List.append_cons]
    exact reads_print hreads hcur' (by omega) (fun d hd => hplain d (List.mem_cons_of_mem c hd))

/-- At the beginning of a line. -/
theorem print_newline (t : Screen) (str : List UInt8) :
    ∃ row < 25, (t.print (str ++ [newline])).cursor.val = 80 * row := by
  rw [Screen.print, List.foldl_append]
  refine ⟨((str.foldl Screen.put t).cursor.val / 80 + 1) % 25, Nat.mod_lt _ (by decide), ?_⟩
  simp only [List.foldl_cons, List.foldl_nil, Screen.put, if_true, nextLine]
  omega

end JarvOs.Shell
