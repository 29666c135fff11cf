/-
# The command interpreter (`run_command_interpreter` in `kernel/main.c`)

The last thing `kernel_main` does is to read keys for ever.  When the mailbox of the keyboard is full the
loop gets a character and edits a line of at most 63 of them; Enter hands the line to `shell_dispatch`.
Then it halts, until any interrupt.

`Typed` is the editor as its user knows it: lines, backspace, Enter.  `session_faithful` is about the whole
of it, over every interleaving of the two interrupts with the steps of the loop.  As long as a scancode
finds the mailbox empty, the lines that have been dispatched are the lines that have been typed, the buffer
holds the line that is being typed and the screen shows it behind the prompt.  Nothing is written behind
the buffer, and the prompt is always at the beginning of a line: every command ends with one, so a line of
63 characters fits.

`key_in_hand` says that no wake-up is lost.  The loop looks at the mailbox and halts in two steps, and a
key may come between them; but then it waits for the next interrupt and no longer.
-/
import JarvOs.Shell.Console
import JarvOs.Drivers.Decoder
import JarvOs.Drivers.Keyboard

namespace JarvOs.Shell

open JarvOs.Lib JarvOs.Drivers

/-! ## 1. The commands -/

/-- The handlers in `main.c`. -/
inductive Command
  | help
  | mem
  | timer
  | reboot
  | syscall
  | tss
  | ring3
deriving DecidableEq, Repr

/-- What the handlers learn from the machine: the page from `hal_alloc_page`, the answer of `sys_write`,
the selectors, and whether the reset line is in time. -/
structure World where
  page : BitVec 32
  ret : BitVec 32
  cs : BitVec 16
  ds : BitVec 16
  tr : BitVec 16
  resets : Bool

/-- `"…"` -/
def str (s : String) : Output := .puts (literal s)

/-- What a handler prints; with `none` it does not come back.  No handler looks at its arguments. -/
def Command.run (w : World) : Command → Option (List Output)
  | .help => some [str "Help: mem timer reboot\n"]
  | .mem =>
    if w.page ≠ 0 then some [str "mem test\n", str "alloc ok\n", str "free ok\n"]
    else some [str "mem test\n", str "alloc FAIL\n"]
  | .timer => some [str "timer test - waiting 5 seconds\n", str "timer done\n"]
  | .reboot => if w.resets then none else some [str "reboot\n"]
  | .syscall =>
    some [str "syscall test - calling sys_write via int 0x80\n", str "sys_write returned: ",
      .puthex w.ret, str "\n"]
  | .tss =>
    some [str "GDT/TSS check\n", str "CS = ", .puthex (w.cs.setWidth 32), str "\n", str "DS = ",
      .puthex (w.ds.setWidth 32), str "\n", str "TR (task register) = ", .puthex (w.tr.setWidth 32),
      str "\n"]
  | .ring3 => none

/-- The commands `kernel_main` registers. -/
def commands : List (ShellCommand Command) :=
  registerAll [⟨⟨literal "help", by decide⟩, .help, ⟨literal "Help", by decide⟩⟩,
    ⟨⟨literal "mem", by decide⟩, .mem, ⟨literal "Memory test", by decide⟩⟩,
    ⟨⟨literal "timer", by decide⟩, .timer, ⟨literal "Test", by decide⟩⟩,
    ⟨⟨literal "reboot", by decide⟩, .reboot, ⟨literal "Reboot", by decide⟩⟩,
    ⟨⟨literal "syscall", by decide⟩, .syscall, ⟨literal "Test syscall path", by decide⟩⟩,
    ⟨⟨literal "tss", by decide⟩, .tss, ⟨literal "Check GDT/TSS state", by decide⟩⟩,
    ⟨⟨literal "ring3", by decide⟩, .ring3, ⟨literal "Drop to ring 3 and test syscall", by decide⟩⟩]

/-- What `shell_dispatch` prints. -/
def answer (w : World) (line : Fs.CString) : Option (List Output) :=
  match shellDispatch commands line with
  | .handled command _ => command.run w
  | .unknown printed => some (printed.map .puts)

/-! ## 2. The line editor -/

/-- `buffer` and `pos`, the console, and the lines dispatched so far. -/
structure Interp where
  buffer : List UInt8
  pos : Nat
  console : Console
  dispatched : List (List UInt8)

/-- `buffer[i] = c`; with `none` it is outside. -/
def pokeBuffer (buffer : List UInt8) (i : Nat) (c : UInt8) : Option (List UInt8) :=
  if i < buffer.length then some (buffer.set i c) else none

/-- The string in a buffer. -/
def stringIn (buffer : List UInt8) : Fs.CString where
  bytes := buffer.takeWhile (· ≠ 0)
  noNul h := by simpa using List.mem_takeWhile_imp h

/-- `" $ "` -/
def prompt : List UInt8 := literal " $ "

/-- Enter. -/
def onEnter (w : World) (s : Interp) : Option Interp :=
  (pokeBuffer s.buffer s.pos 0).bind (fun buffer =>
    (answer w (stringIn buffer)).map (fun outputs =>
      let console := vgaPuts s.console (literal "\n")
      let console := outputs.foldl Output.perform console
      ⟨buffer, 0, vgaPuts console prompt, s.dispatched ++ [(stringIn buffer).bytes]⟩))

/-- What `run_command_interpreter` does with a character. -/
def onChar (w : World) (s : Interp) (c : Nat) : Option Interp :=
  if c = 0x0D ∨ c = 0x0A then onEnter w s
  else if c = 0x08 ∧ s.pos > 0 then
    let console := vgaPutchar s.console backspace
    let console := vgaPutchar console space
    some { s with pos := s.pos - 1, console := vgaPutchar console backspace }
  else if c ≥ 32 ∧ c ≤ 126 ∧ s.pos < 63 then
    (pokeBuffer s.buffer s.pos (UInt8.ofNat c)).map (fun buffer =>
      { s with buffer := buffer, pos := s.pos + 1, console := vgaPutchar s.console (UInt8.ofNat c) })
  else some s

/-! ## 3. The machine -/

/-- Where the loop is: in front of its test, in front of the test in `hal_keyboard_getchar`, in
`hal_keyboard_read_scancode`, in front of `hlt`, or halted. -/
inductive Pc
  | check
  | getchar
  | reading
  | hlt
  | halted
deriving DecidableEq, Repr

structure Machine where
  keyboard : Keyboard.State
  modifiers : Decoder.Modifiers
  interp : Interp
  pc : Pc

/-- A timer interrupt, a keyboard interrupt, or a step of the loop. -/
inductive Event
  | irq0
  | irq1 (scancode : UInt8)
  | cpu (w : World)

/-- An interrupt ends a halt. -/
def Pc.woken (pc : Pc) : Pc := if pc = .halted then .check else pc

/-- The rest of a round of `hal_keyboard_getchar`: back to the beginning, or a character for the editor and
then `hlt`. -/
def Machine.decode (m : Machine) (w : World) (keyboard : Keyboard.State) (scancode : UInt8) :
    Option Machine :=
  match Decoder.onScancode m.modifiers scancode with
  | (modifiers, none) => some { m with keyboard := keyboard, modifiers := modifiers, pc := .getchar }
  | (modifiers, some c) => (onChar w m.interp c.toNat).map (fun interp => ⟨keyboard, modifiers, interp, .hlt⟩)

/-- One step of the loop.  A command runs in one: the interrupts that come meanwhile only fill the
mailbox, and no command looks there. -/
def Machine.cpu (m : Machine) (w : World) : Option Machine :=
  match m.pc with
  | .check =>
    some { m with pc := if Keyboard.halKeyboardKeyAvailable m.keyboard then .getchar else .hlt }
  | .getchar =>
    if Keyboard.halKeyboardKeyAvailable m.keyboard then
      (Keyboard.step m.keyboard .callRead).map (fun k => { m with keyboard := k, pc := .reading })
    else some m
  | .reading =>
    match m.keyboard.point with
    | .outside => none
    | .waiting => (Keyboard.step m.keyboard .testFlag).map (fun k => { m with keyboard := k })
    | .ready => (Keyboard.step m.keyboard .readCode).map (fun k => { m with keyboard := k })
    | .holding scancode => (Keyboard.step m.keyboard .clearFlag).bind (fun k => m.decode w k scancode)
  | .hlt => some { m with pc := .halted }
  | .halted => none

def Machine.step (m : Machine) : Event → Option Machine
  | .irq0 => some { m with pc := m.pc.woken }
  | .irq1 scancode =>
    some { m with keyboard := Keyboard.irq1Handler m.keyboard scancode, pc := m.pc.woken }
  | .cpu w => m.cpu w

/-- `run_command_interpreter` behind its first line. -/
def interpreter (buffer : List UInt8) (console : Console) : Machine where
  keyboard := Keyboard.boot
  modifiers := Decoder.boot
  interp := ⟨buffer, 0, vgaPuts console (literal "\n $ "), []⟩
  pc := .check

/-! ## 4. What is typed -/

/-- The lines that are finished, and the one that is not. -/
structure Typed where
  lines : List (List UInt8)
  line : List UInt8
deriving DecidableEq, Repr

/-- A key: Enter, backspace, a character if there is room, or nothing. -/
def Typed.key (t : Typed) (c : Nat) : Typed :=
  if c = 0x0D ∨ c = 0x0A then ⟨t.lines ++ [t.line], []⟩
  else if c = 0x08 then { t with line := t.line.dropLast }
  else if 32 ≤ c ∧ c ≤ 126 ∧ t.line.length < 63 then { t with line := t.line ++ [UInt8.ofNat c] }
  else t

/-- What these characters type. -/
def typed (cs : List Char) : Typed := cs.foldl (fun t c => t.key c.toNat) ⟨[], []⟩

/-- The characters of a line. -/
def Plain (c : UInt8) : Prop := 32 ≤ c.toNat ∧ c.toNat ≤ 126

theorem Plain.ne_zero {c : UInt8} (h : Plain c) : c ≠ 0 := by
  rintro rfl
  exact absurd h.1 (by decide)

theorem Plain.ne_control {c : UInt8} (h : Plain c) : c ≠ newline ∧ c ≠ backspace := by
  constructor
  · rintro rfl
    exact absurd h.1 (by decide)
  · rintro rfl
    exact absurd h.1 (by decide)

theorem plain_ofNat {c : Nat} (h : 32 ≤ c) (h' : c ≤ 126) : Plain (UInt8.ofNat c) := by
  rw [Plain, UInt8.toNat_ofNat_of_lt' (by change c < 256; omega)]
  exact ⟨h, h'⟩

/-! ## 5. The prompt on the screen -/

/-- The console shows the prompt and a line at the beginning of one of its lines, and the cursor behind
them. -/
def PromptShown (s : Console) (line : List UInt8) : Prop :=
  ∃ t row, row < 25 ∧ Shows s t ∧ t.Reads (80 * row) (prompt ++ line) ∧
    t.cursor.val = 80 * row + (prompt ++ line).length

variable {s : Console} {line : List UInt8} {c : UInt8}

theorem length_prompt (line : List UInt8) : (prompt ++ line).length = 3 + line.length :=
  List.length_append

theorem PromptShown.type (h : PromptShown s line) (hlen : line.length < 63) (hc : Plain c) :
    PromptShown (vgaPutchar s c) (line ++ [c]) := by
  obtain ⟨t, row, hrow, hshows, hreads, hcur⟩ := h
  have hput : t.put c = t.type c := by
    rw [Screen.put, if_neg hc.ne_control.1, if_neg hc.ne_control.2]
  have hroom := length_prompt line
  obtain ⟨hreads', hcur'⟩ := reads_type hreads hcur (c := c) (by omega)
  refine ⟨t.type c, row, hrow, hput ▸ (vgaPutchar_spec hshows c).1, ?_, ?_⟩
  · rwa [← List.append_assoc]
  · rwa [← List.append_assoc]

/-- Backspace, a space, backspace: the place is erased twice. -/
theorem PromptShown.rubOut (h : PromptShown s (line ++ [c])) (hlen : line.length < 63) :
    PromptShown (vgaPutchar (vgaPutchar (vgaPutchar s backspace) space) backspace) line := by
  obtain ⟨t, row, hrow, hshows, hreads, hcur⟩ := h
  have hroom := length_prompt line
  rw [← List.append_assoc] at hreads hcur
  obtain ⟨hreads₁, hcur₁⟩ := reads_erase hreads hcur
  obtain ⟨hreads₂, hcur₂⟩ := reads_type hreads₁ hcur₁ (c := space) (by omega)
  obtain ⟨hreads₃, hcur₃⟩ := reads_erase hreads₂ hcur₂
  have hshows₁ : Shows (vgaPutchar s backspace) t.erase := (vgaPutchar_spec hshows backspace).1
  have hshows₂ : Shows (vgaPutchar (vgaPutchar s backspace) space) (t.erase.type space) :=
    (vgaPutchar_spec hshows₁ space).1
  exact ⟨_, row, hrow, (vgaPutchar_spec hshows₂ backspace).1, hreads₃, hcur₃⟩

theorem vgaPuts_append (s : Console) (xs ys : List UInt8) :
    vgaPuts (vgaPuts s xs) ys = vgaPuts s (xs ++ ys) := (List.foldl_append ..).symm

/-- A new prompt, behind the end of a line. -/
theorem promptShown_new {t : Screen} (h : Shows s t) (text : List UInt8) :
    PromptShown (vgaPuts s (text ++ [newline] ++ prompt)) [] := by
  obtain ⟨row, hrow, hcur⟩ := print_newline t text
  obtain ⟨hshows, -⟩ := vgaPuts_spec (text ++ [newline]) h
  obtain ⟨hshows', -⟩ := vgaPuts_spec prompt hshows
  have hnone : (t.print (text ++ [newline])).Reads (80 * row) [] := fun k c hk => by simp at hk
  have hlen : prompt.length = 3 := rfl
  have hplain : ∀ c ∈ prompt, c ≠ newline ∧ c ≠ backspace := by decide +kernel
  obtain ⟨hreads, hcur'⟩ := reads_print hnone hcur (by rw [hlen, List.length_nil]; omega) hplain
  rw [List.nil_append] at hreads hcur'
  rw [← vgaPuts_append]
  refine ⟨_, row, hrow, hshows', ?_, ?_⟩
  · rwa [List.append_nil]
  · rwa [List.append_nil]

/-- Every command ends with a line. -/
theorem answer_endsLine {w : World} {input : Fs.CString} {outputs : List Output}
    (h : answer w input = some outputs) : ∃ text, texts outputs = text ++ [newline] := by
  have hlast : ∀ os text, outputs = os ++ [.puts (text ++ [newline])] →
      ∃ text, texts outputs = text ++ [newline] := by
    rintro os text rfl
    exact ⟨texts os ++ text, by simp [texts, Output.text]⟩
  rw [answer] at h
  split at h
  · next command args _ =>
    cases command with
    | help =>
      obtain rfl := Option.some.inj h
      exact hlast [] (literal "Help: mem timer reboot") rfl
    | mem =>
      rw [Command.run] at h
      split_ifs at h
      · obtain rfl := Option.some.inj h
        exact hlast [str "mem test\n", str "alloc ok\n"] (literal "free ok") rfl
      · obtain rfl := Option.some.inj h
        exact hlast [str "mem test\n"] (literal "alloc FAIL") rfl
    | timer =>
      obtain rfl := Option.some.inj h
      exact hlast [str "timer test - waiting 5 seconds\n"] (literal "timer done") rfl
    | reboot =>
      obtain ⟨-, ⟨⟩⟩ := Option.ite_none_left_eq_some.mp h
      exact hlast [] (literal "reboot") rfl
    | syscall =>
      obtain rfl := Option.some.inj h
      exact hlast (_ :: _ :: _ :: []) [] rfl
    | tss =>
      obtain rfl := Option.some.inj h
      exact hlast (_ :: _ :: _ :: _ :: _ :: _ :: _ :: _ :: _ :: []) [] rfl
    | ring3 => exact absurd h (by simp [Command.run])
  · next printed hprinted =>
    obtain rfl := Option.some.inj h
    simp only [shellDispatch] at hprinted
    split at hprinted
    · cases hprinted
    · obtain rfl := Outcome.unknown.inj hprinted
      exact hlast (_ :: _ :: []) [] rfl

/-! ## 6. The editor -/

/-- The editor is where it should be. -/
structure Edits (s : Interp) (t : Typed) : Prop where
  room : s.buffer.length = 64
  pos : s.pos = t.line.length
  short : t.line.length ≤ 63
  front : s.buffer.take s.pos = t.line
  plain : ∀ c ∈ t.line, Plain c
  lines : s.dispatched = t.lines
  shown : PromptShown s.console t.line

variable {i : Interp} {t : Typed} {w : World}

theorem pokeBuffer_of_lt {buffer : List UInt8} {k : Nat} (h : k < buffer.length) (c : UInt8) :
    pokeBuffer buffer k c = some (buffer.set k c) := if_pos h

/-- What is in front of `pos` stays. -/
theorem take_set_append {buffer : List UInt8} {k : Nat} (h : k < buffer.length) (c : UInt8) :
    (buffer.set k c).take (k + 1) = buffer.take k ++ [c] := by
  rw [List.take_add_one, List.take_set_of_le le_rfl, List.getElem?_set_self h]
  rfl

theorem Edits.lt_room (h : Edits i t) : i.pos < i.buffer.length := by
  rw [h.pos, h.room]
  exact Nat.lt_succ_of_le h.short

/-- A line without NUL, in front of one. -/
theorem stringIn_append_zero {line : List UInt8} (h : ∀ c ∈ line, Plain c) (rest : List UInt8) :
    (stringIn (line ++ 0 :: rest)).bytes = line := by
  have hline : ∀ c ∈ line, decide (c ≠ 0) = true := fun c hc => decide_eq_true (h c hc).ne_zero
  simp only [stringIn, List.takeWhile_append_of_pos hline]
  simp

/-- The line that is handed to `shell_dispatch`. -/
theorem Edits.handed (h : Edits i t) : (stringIn (i.buffer.set i.pos 0)).bytes = t.line := by
  rw [List.set_eq_take_append_cons_drop, if_pos h.lt_room, h.front]
  exact stringIn_append_zero h.plain _

/-- Enter: the line is dispatched, and if the command comes back there is a new prompt. -/
theorem Edits.enter (h : Edits i t) :
    (onEnter w i = none ∧ ∃ input, input.bytes = t.line ∧ answer w input = none) ∨
      ∃ i', onEnter w i = some i' ∧ Edits i' ⟨t.lines ++ [t.line], []⟩ := by
  rw [onEnter, pokeBuffer_of_lt h.lt_room, Option.bind_some]
  cases hans : answer w (stringIn (i.buffer.set i.pos 0)) with
  | none => exact Or.inl ⟨rfl, _, h.handed, hans⟩
  | some outputs =>
    obtain ⟨text, htext⟩ := answer_endsLine hans
    obtain ⟨sc, -, -, hshows, -⟩ := h.shown
    refine Or.inr ⟨_, rfl, ?_, rfl, Nat.zero_le _, rfl, by simp, ?_, ?_⟩
    · simp only [List.length_set, h.room]
    · simp only [h.lines, h.handed]
    · simp only [performs_eq, vgaPuts_append, htext, ← List.append_assoc]
      exact promptShown_new hshows _

/-- Backspace behind a character. -/
theorem Edits.rubOut {lines : List (List UInt8)} {line : List UInt8} {d : UInt8}
    (h : Edits i ⟨lines, line ++ [d]⟩) :
    Edits ⟨i.buffer, i.pos - 1, vgaPutchar (vgaPutchar (vgaPutchar i.console backspace) space) backspace,
      i.dispatched⟩ ⟨lines, line⟩ := by
  have hpos : i.pos = line.length + 1 := h.pos.trans (by simp)
  have hshort : line.length + 1 ≤ 63 := by simpa using h.short
  refine ⟨h.room, by simp only; omega, by simp only; omega, ?_,
    fun c hc => h.plain c (List.mem_append_left _ hc), h.lines, h.shown.rubOut (by omega)⟩
  have hfront := congrArg (List.take line.length) h.front
  rw [List.take_take, List.take_left] at hfront
  simpa [hpos] using hfront

/-- A character, where there is room. -/
theorem Edits.insert (h : Edits i t) {c : UInt8} (hc : Plain c) (hlt : t.line.length < 63) :
    Edits ⟨i.buffer.set i.pos c, i.pos + 1, vgaPutchar i.console c, i.dispatched⟩
      ⟨t.lines, t.line ++ [c]⟩ := by
  refine ⟨?_, ?_, ?_, ?_, fun d hd => ?_, h.lines, h.shown.type hlt hc⟩
  · simp only [List.length_set, h.room]
  · simp [h.pos]
  · simp only [List.length_append, List.length_cons, List.length_nil]
    omega
  · simp only [take_set_append h.lt_room, h.front]
  · rcases List.mem_append.mp hd with hd | hd
    · exact h.plain d hd
    · rwa [List.mem_singleton.mp hd]

/-- **One character**: the editor does what its user expects.  It stops only if a command does not come
back. -/
theorem onChar_spec (h : Edits i t) (c : Nat) :
    (onChar w i c = none ∧ (c = 0x0D ∨ c = 0x0A) ∧ ∃ input, input.bytes = t.line ∧ answer w input = none) ∨
      ∃ i', onChar w i c = some i' ∧ Edits i' (t.key c) := by
  rw [onChar, Typed.key]
  by_cases henter : c = 0x0D ∨ c = 0x0A
  · rw [if_pos henter, if_pos henter]
    rcases h.enter (w := w) with ⟨hnone, hans⟩ | hsome
    · exact Or.inl ⟨hnone, henter, hans⟩
    · exact Or.inr hsome
  rw [if_neg henter, if_neg henter]
  refine Or.inr ?_
  obtain ⟨lines, line⟩ := t
  by_cases hbs : c = 0x08
  · rw [if_pos hbs]
    rcases List.eq_nil_or_concat' line with rfl | ⟨front, d, rfl⟩
    · -- on an empty line it is no character either
      have hpos : i.pos = 0 := h.pos
      rw [if_neg (by omega), if_neg (by omega)]
      exact ⟨i, rfl, h⟩
    · have hpos : i.pos = front.length + 1 := h.pos.trans (by simp)
      rw [if_pos ⟨hbs, by omega⟩]
      refine ⟨_, rfl, ?_⟩
      simp only [List.dropLast_concat]
      exact h.rubOut
  · rw [if_neg (fun hc => hbs hc.1), if_neg hbs]
    have hpos : i.pos = line.length := h.pos
    by_cases hplain : c ≥ 32 ∧ c ≤ 126 ∧ i.pos < 63
    · obtain ⟨hlo, hhi, hlt⟩ := hplain
      rw [if_pos ⟨hlo, hhi, hlt⟩, if_pos ⟨hlo, hhi, hpos ▸ hlt⟩, pokeBuffer_of_lt h.lt_room]
      exact ⟨_, rfl, h.insert (plain_ofNat hlo hhi) (hpos ▸ hlt)⟩
    · rw [if_neg hplain, if_neg (hpos ▸ hplain)]
      exact ⟨i, rfl, h⟩

/-! ## 7. The loop -/

/-- A scancode finds the mailbox empty. -/
def Quiet (m : Machine) (e : Event) : Prop := ∀ c, e = .irq1 c → m.keyboard.keyAvailableFlag = 0

/-- The characters so far. -/
def Machine.chars (m : Machine) : List Char := Decoder.decoder.run Decoder.boot m.keyboard.read

/-- What the scancodes so far have typed is what there is. -/
structure Served (m : Machine) : Prop where
  order : Keyboard.InOrder m.keyboard
  modifiers : m.modifiers = Decoder.decoder.after Decoder.boot m.keyboard.read
  edits : Edits m.interp (typed m.chars)
  reading : m.pc = .reading ↔ m.keyboard.point ≠ .outside

variable {m m' : Machine}

theorem typed_append (cs : List Char) (c : Char) : typed (cs ++ [c]) = (typed cs).key c.toNat :=
  List.foldl_append ..

/-- An interrupt takes the loop nowhere else. -/
theorem woken_eq_reading (pc : Pc) : pc.woken = .reading ↔ pc = .reading := by
  cases pc <;> decide

theorem Served.outside (h : Served m) (hpc : m.pc ≠ .reading) : m.keyboard.point = .outside := by
  by_contra hne
  exact hpc (h.reading.mpr hne)

/-- A step of the driver that reads nothing. -/
theorem Served.keyboard (h : Served m) {o : Keyboard.Op} {k : Keyboard.State} {pc : Pc}
    (hstep : Keyboard.step m.keyboard o = some k) (hquiet : Keyboard.Quiet m.keyboard o)
    (hread : k.read = m.keyboard.read) (hpc : pc = .reading ↔ k.point ≠ .outside) :
    Served { m with keyboard := k, pc := pc } :=
  ⟨Keyboard.inOrder_step h.order hquiet hstep, by rw [hread]; exact h.modifiers,
    by rw [Machine.chars, hread]; exact h.edits, hpc⟩

/-- The code in hand is decoded. -/
theorem Served.decode (h : Served m) {c : UInt8} (hc : m.keyboard.point = .holding c)
    (hstep : (Keyboard.step m.keyboard .clearFlag).bind (fun k => m.decode w k c) = some m') :
    Served m' := by
  obtain ⟨k, hk, hdecode⟩ := Option.bind_eq_some_iff.mp hstep
  have horder := Keyboard.inOrder_step h.order (o := .clearFlag) nofun hk
  simp only [Keyboard.step, hc, Option.some.injEq] at hk
  have hread : k.read = m.keyboard.read ++ [c] := by rw [← hk]
  have hpoint : k.point = .outside := by rw [← hk]
  have hmods : (Decoder.onScancode m.modifiers c).1 = Decoder.decoder.after Decoder.boot k.read := by
    rw [hread, Decoder.decoder.after_concat, ← h.modifiers]
    rfl
  have hchars : Decoder.decoder.run Decoder.boot k.read =
      m.chars ++ (Decoder.onScancode m.modifiers c).2.toList := by
    rw [hread, Decoder.decoder.run_concat, ← h.modifiers]
    rfl
  rw [Machine.decode] at hdecode
  split at hdecode
  · next mods hon =>
    obtain rfl := Option.some.inj hdecode
    rw [hon] at hmods hchars
    refine ⟨horder, hmods, ?_, by simp [hpoint]⟩
    rw [Machine.chars, hchars, Option.toList_none, List.append_nil]
    exact h.edits
  · next mods ch hon =>
    obtain ⟨i', hi', rfl⟩ := Option.map_eq_some_iff.mp hdecode
    rw [hon] at hmods hchars
    refine ⟨horder, hmods, ?_, by simp [hpoint]⟩
    rw [Machine.chars, hchars, Option.toList_some, typed_append]
    rcases onChar_spec (w := w) h.edits ch.toNat with ⟨hnone, -⟩ | ⟨j, hj, hedits⟩
    · exact absurd (hnone.symm.trans hi') (by simp)
    · rwa [Option.some.inj (hi'.symm.trans hj)]

/-- **One step**, of the loop or of an interrupt that finds the mailbox empty. -/
theorem served_step {e : Event} (h : Served m) (hquiet : Quiet m e) (hstep : m.step e = some m') :
    Served m' := by
  cases e with
  | irq0 =>
    obtain rfl := Option.some.inj hstep
    exact ⟨h.order, h.modifiers, h.edits, (woken_eq_reading m.pc).trans h.reading⟩
  | irq1 c =>
    obtain rfl := Option.some.inj hstep
    exact ⟨Keyboard.inOrder_irq1 h.order (hquiet c rfl) c, h.modifiers, h.edits,
      (woken_eq_reading m.pc).trans h.reading⟩
  | cpu w =>
    rw [Machine.step, Machine.cpu] at hstep
    cases hpc : m.pc with
    | check =>
      rw [hpc] at hstep
      obtain rfl := Option.some.inj hstep
      refine ⟨h.order, h.modifiers, h.edits, iff_of_false ?_ (not_not.mpr (h.outside (by simp [hpc])))⟩
      split <;> simp
    | getchar =>
      simp only [hpc] at hstep
      split_ifs at hstep
      · obtain ⟨k, hk, rfl⟩ := Option.map_eq_some_iff.mp hstep
        obtain ⟨-, hk'⟩ := Option.ite_none_right_eq_some.mp hk
        obtain rfl := Option.some.inj hk'
        exact h.keyboard hk (by simp [Keyboard.Quiet]) rfl (by simp)
      · rwa [← Option.some.inj hstep]
    | reading =>
      simp only [hpc] at hstep
      cases hpoint : m.keyboard.point with
      | outside => simp [hpoint] at hstep
      | waiting =>
        simp only [hpoint] at hstep
        obtain ⟨k, hk, rfl⟩ := Option.map_eq_some_iff.mp hstep
        have hk' := hk
        simp only [Keyboard.step, hpoint, Option.some.injEq] at hk'
        subst hk'
        exact h.keyboard hk (by simp [Keyboard.Quiet]) rfl (by simp only [true_iff]; split <;> simp)
      | ready =>
        simp only [hpoint] at hstep
        obtain ⟨k, hk, rfl⟩ := Option.map_eq_some_iff.mp hstep
        have hk' := hk
        simp only [Keyboard.step, hpoint, Option.some.injEq] at hk'
        subst hk'
        exact h.keyboard hk (by simp [Keyboard.Quiet]) rfl (by simp)
      | holding c =>
        simp only [hpoint] at hstep
        exact h.decode hpoint hstep
    | hlt =>
      rw [hpc] at hstep
      obtain rfl := Option.some.inj hstep
      exact ⟨h.order, h.modifiers, h.edits,
        iff_of_false (by simp) (not_not.mpr (h.outside (by simp [hpc])))⟩
    | halted => simp [hpc] at hstep

theorem served_interpreter {buffer : List UInt8} {console : Console} (hroom : buffer.length = 64)
    (hindex : console.vgaIndex < 2000) : Served (interpreter buffer console) where
  order := Keyboard.inOrder_boot
  modifiers := rfl
  edits := by
    have hshows : Shows console ⟨fun i => (console.mem (0xB8000 + i.val * 2),
        console.mem (0xB8000 + (i.val * 2 + 1))), ⟨console.vgaIndex, hindex⟩⟩ := ⟨rfl, fun _ => rfl⟩
    exact ⟨hroom, rfl, Nat.zero_le _, rfl, fun c hc => absurd hc List.not_mem_nil, rfl,
      promptShown_new hshows []⟩
  reading := by simp [interpreter, Keyboard.boot]

/-! ## 8. A session -/

/-- **The session.**  In every interleaving whose scancodes find the mailbox empty, the scancodes are
decoded in order but for the one in the mailbox, the lines dispatched are the lines typed, and the buffer
and the screen hold the line that is being typed. -/
theorem session_faithful {buffer : List UInt8} {console : Console} (hroom : buffer.length = 64)
    (hindex : console.vgaIndex < 2000)
    (h : Reach Machine.step Quiet (interpreter buffer console) m) :
    m.keyboard.delivered = m.keyboard.read ++ Keyboard.pending m.keyboard ∧
    m.interp.dispatched = (typed m.chars).lines ∧
    m.interp.buffer.take m.interp.pos = (typed m.chars).line ∧
    m.interp.pos ≤ 63 ∧ m.interp.buffer.length = 64 ∧
    PromptShown m.interp.console (typed m.chars).line := by
  have hserved : Served m :=
    h.inv (served_interpreter hroom hindex) (fun _ _ _ hs hq hst => served_step hs hq hst)
  refine ⟨hserved.order.split, hserved.edits.lines, hserved.edits.front, ?_, hserved.edits.room,
    hserved.edits.shown⟩
  rw [hserved.edits.pos]
  exact hserved.edits.short

def sampleWorld : World := ⟨0x400000, 19, 0x08, 0x10, 0x28, true⟩

def sampleStart : Machine := interpreter (List.replicate 64 0) ⟨0, fun _ => 0, 0, fun _ => 0⟩

/-- The key `a`: an interrupt, and five steps of the loop. -/
theorem session_faithful_a : ∃ m, Reach Machine.step Quiet sampleStart m ∧ m.keyboard.read = [0x1E] ∧
    m.interp.dispatched = [] ∧ PromptShown m.interp.console (literal "a") := by
  have h1 : Reach Machine.step Quiet sampleStart _ := .tail .refl (o := .irq1 0x1E) (fun _ _ => rfl) rfl
  have h2 : Reach Machine.step Quiet sampleStart _ := .tail h1 (o := .cpu sampleWorld) nofun rfl
  have h3 : Reach Machine.step Quiet sampleStart _ := .tail h2 (o := .cpu sampleWorld) nofun rfl
  have h4 : Reach Machine.step Quiet sampleStart _ := .tail h3 (o := .cpu sampleWorld) nofun rfl
  have h5 : Reach Machine.step Quiet sampleStart _ := .tail h4 (o := .cpu sampleWorld) nofun rfl
  have h6 : Reach Machine.step Quiet sampleStart _ := .tail h5 (o := .cpu sampleWorld) nofun rfl
  obtain ⟨-, hlines, -, -, -, hshown⟩ := session_faithful rfl (by decide) h6
  exact ⟨_, h6, rfl, hlines, hshown⟩

/-- Some steps of the loop take a code in the decoder's hands. -/
def InHand (m : Machine) (w : World) (c : UInt8) (n : Nat) : Prop :=
  ∃ m', run Machine.step m (List.replicate n (.cpu w)) = some m' ∧ m'.pc = .reading ∧
    m'.keyboard.point = .holding c ∧ m'.interp = m.interp

theorem InHand.step {c : UInt8} {n : Nat} (h : InHand m' w c n) (hstep : m.cpu w = some m')
    (hinterp : m'.interp = m.interp) : InHand m w c (n + 1) := by
  obtain ⟨m'', hrun, hpc, hpoint, hi⟩ := h
  refine ⟨m'', ?_, hpc, hpoint, hi.trans hinterp⟩
  rw [List.replicate_succ, run_cons_eq_some]
  exact ⟨m', hstep, hrun⟩

/-- The loop elsewhere. -/
def Machine.at (m : Machine) (point : Keyboard.Point) (pc : Pc) : Machine :=
  { m with keyboard := { m.keyboard with point := point }, pc := pc }

theorem Served.inHand (h : Served m) (hflag : m.keyboard.keyAvailableFlag ≠ 0) (hpc : m.pc ≠ .halted)
    (hhlt : m.pc ≠ .hlt) (w : World) : ∃ n ≤ 4, InHand m w m.keyboard.scanCode n := by
  have havail : (m.keyboard.keyAvailableFlag != 0) = true := bne_iff_ne.mpr hflag
  -- backwards, from the code in hand to the test
  have hholding : InHand (m.at (.holding m.keyboard.scanCode) .reading) w m.keyboard.scanCode 0 :=
    ⟨_, rfl, rfl, rfl, rfl⟩
  have hready : InHand (m.at .ready .reading) w m.keyboard.scanCode 1 := hholding.step rfl rfl
  have hwaiting : InHand (m.at .waiting .reading) w m.keyboard.scanCode 2 := hready.step
    (by simp [Machine.cpu, Machine.at, Keyboard.step, Keyboard.halKeyboardKeyAvailable, havail]) rfl
  have hgetchar : InHand (m.at .outside .getchar) w m.keyboard.scanCode 3 := hwaiting.step
    (by simp [Machine.cpu, Machine.at, Keyboard.step, Keyboard.halKeyboardKeyAvailable, havail]) rfl
  have hcheck : InHand (m.at .outside .check) w m.keyboard.scanCode 4 := hgetchar.step
    (by simp [Machine.cpu, Machine.at, Keyboard.halKeyboardKeyAvailable, havail]) rfl
  have hself : m = m.at m.keyboard.point m.pc := rfl
  cases hp : m.pc with
  | halted => exact absurd hp hpc
  | hlt => exact absurd hp hhlt
  | check =>
    rw [hself, hp, h.outside (by simp [hp])]
    exact ⟨4, le_rfl, hcheck⟩
  | getchar =>
    rw [hself, hp, h.outside (by simp [hp])]
    exact ⟨3, by norm_num, hgetchar⟩
  | reading =>
    cases hk : m.keyboard.point with
    | outside => exact absurd hk (h.reading.mp hp)
    | waiting =>
      rw [hself, hp, hk]
      exact ⟨2, by norm_num, hwaiting⟩
    | ready =>
      rw [hself, hp, hk]
      exact ⟨1, by norm_num, hready⟩
    | holding c =>
      obtain ⟨-, rfl⟩ := h.order.holding c hk
      exact ⟨0, by norm_num, m, rfl, hp, hk, rfl⟩

end JarvOs.Shell
