/-
# The shell's commands (`kernel/shell/commands.c`)

A line is a command's name, a space, and its arguments.  `shell_dispatch` copies the name into a buffer
of 32 bytes, compares that with the names in the table, and passes on the line from where the copying
stopped, or one further if it stopped at a space.

`wanted` is what a line means: the first word is the name, what comes behind the space are the arguments,
and the earliest command of that name is called.  The copy is the first word as long as that has at most
31 characters (`copyName_eq`).  A longer one is cut, so the shell looks for the wrong name; and if it
finds it, the rest of the word is taken for arguments.  `dispatch_faithful_iff` is the exact condition.
-/
import JarvOs.Fs.PathLaws

namespace JarvOs.Shell

open JarvOs.Fs (CString strcmp)

variable {κ : Type}

/-! ## 1. The code -/

/-- `MAX_COMMANDS` -/
def maxCommands : Nat := 64

/-- `shell_command_t`, with any kind of handlers. -/
structure ShellCommand (κ : Type) where
  name : CString
  handler : κ
  helpText : CString

/-- `shell_register_command`, where the table holds `command_count` commands. -/
def shellRegisterCommand (table : List (ShellCommand κ)) (c : ShellCommand κ) :
    Int × List (ShellCommand κ) :=
  if table.length ≥ maxCommands then (-1, table) else (0, table ++ [c])

/-- The table after these calls. -/
def registerAll (cs : List (ShellCommand κ)) : List (ShellCommand κ) :=
  cs.foldl (fun table c => (shellRegisterCommand table c).2) []

/-- `' '` -/
abbrev space : UInt8 := 0x20

/-- `input[i]`; behind the bytes there is a zero. -/
def charAt (input : CString) (i : Nat) : UInt8 := (input.bytes[i]?).getD 0

/-- The copying loop, from index `i` on with `name[0..i)` copied. -/
def copyName (input : CString) : Nat → Nat → List UInt8 → Nat × List UInt8
  | 0, i, name => (i, name)
  | fuel + 1, i, name =>
    if charAt input i ≠ 0 ∧ charAt input i ≠ space ∧ i < 31 then
      copyName input fuel (i + 1) (name ++ [charAt input i])
    else (i, name)

/-- A handler is called with arguments, or three strings are printed. -/
inductive Outcome (κ : Type)
  | handled (handler : κ) (args : List UInt8)
  | unknown (printed : List (List UInt8))
deriving DecidableEq, Repr

/-- The bytes of a literal. -/
def literal (s : String) : List UInt8 := s.toList.map (fun c => UInt8.ofNat c.toNat)

/-- `shell_dispatch`.  The copying loop makes at most 31 rounds. -/
def shellDispatch (table : List (ShellCommand κ)) (input : CString) : Outcome κ :=
  let (i, name) := copyName input 32 0 []
  let args := if charAt input i = space then input.bytes.drop (i + 1) else input.bytes.drop i
  match table.find? (fun c => strcmp c.name.bytes name = 0) with
  | some c => .handled c.handler args
  | none => .unknown [literal "Unknown command: ", name, literal "\n"]

/-- The handler that is called, and with what. -/
def Outcome.called : Outcome κ → Option (κ × List UInt8)
  | .handled handler args => some (handler, args)
  | .unknown _ => none

/-! ## 2. What a line means -/

/-- The characters before the first space or the end. -/
def firstWord (input : CString) : List UInt8 := input.bytes.takeWhile (· ≠ space)

/-- The text behind the first space. -/
def arguments (input : CString) : List UInt8 := (input.bytes.dropWhile (· ≠ space)).tail

/-- The earliest command of that name gets the arguments. -/
def wanted (table : List (ShellCommand κ)) (input : CString) : Option (κ × List UInt8) :=
  (table.find? (fun c => c.name.bytes = firstWord input)).map (fun c => (c.handler, arguments input))

/-! ## 3. The table -/

/-- The first 64 commands are registered, in order, and no others. -/
theorem registerAll_eq (cs : List (ShellCommand κ)) : registerAll cs = cs.take maxCommands := by
  induction cs using List.reverseRecOn with
  | nil => rfl
  | append_singleton cs c ih =>
    rw [registerAll, List.foldl_append, List.foldl_cons, List.foldl_nil, ← registerAll, ih,
      shellRegisterCommand, List.length_take]
    split
    · next hfull =>
      rw [List.take_append_of_le_length (by omega)]
    · next hroom =>
      rw [List.take_of_length_le (by omega), List.take_of_length_le (by simp; omega)]

/-! ## 4. The copy -/

/-- Inside the first word. -/
theorem charAt_of_lt {input : CString} {i : Nat} (h : i < (firstWord input).length) :
    (firstWord input)[i]? = some (charAt input i) ∧ charAt input i ≠ 0 ∧ charAt input i ≠ space := by
  have hsplit : firstWord input ++ input.bytes.dropWhile (· ≠ space) = input.bytes :=
    List.takeWhile_append_dropWhile
  have hchar : charAt input i = (firstWord input)[i] := by
    rw [charAt, ← hsplit, List.getElem?_append_left h, List.getElem?_eq_getElem h, Option.getD_some]
  have hmem : charAt input i ∈ firstWord input := hchar ▸ List.getElem_mem h
  refine ⟨by rw [hchar, List.getElem?_eq_getElem h], fun h0 => ?_, ?_⟩
  · exact input.noNul (h0 ▸ (List.takeWhile_prefix _).subset hmem)
  · simpa using List.mem_takeWhile_imp hmem

/-- Behind it: the end, or a space and the arguments. -/
theorem charAt_length (input : CString) :
    (charAt input (firstWord input).length = 0 ∧ input.bytes.drop (firstWord input).length = [] ∧
      arguments input = []) ∨
    (charAt input (firstWord input).length = space ∧
      input.bytes.drop ((firstWord input).length + 1) = arguments input) := by
  have hdrop : input.bytes.drop (firstWord input).length = input.bytes.dropWhile (· ≠ space) :=
    JarvOs.Lib.drop_length_takeWhile _ _
  have hchar : charAt input (firstWord input).length =
      ((input.bytes.dropWhile (· ≠ space)).head?).getD 0 := by
    rw [charAt, ← hdrop, List.head?_drop]
  rcases hrest : input.bytes.dropWhile (· ≠ space) with _ | ⟨c, rest⟩
  · refine Or.inl ⟨by rw [hchar, hrest]; rfl, by rw [hdrop, hrest], by rw [arguments, hrest]; rfl⟩
  · have hc := List.head?_dropWhile_not (fun b => decide (b ≠ space)) input.bytes
    rw [hrest] at hc
    refine Or.inr ⟨?_, ?_⟩
    · rw [hchar, hrest]
      simpa using hc
    · rw [← List.drop_drop, hdrop, arguments, List.drop_one]

/-- **The copy is the first word, cut at 31 characters.** -/
theorem copyName_eq (input : CString) : ∀ (fuel i : Nat), i ≤ (firstWord input).length → i ≤ 31 →
    32 ≤ i + fuel → copyName input fuel i ((firstWord input).take i) =
      (min (firstWord input).length 31, (firstWord input).take 31) := by
  intro fuel
  induction fuel with
  | zero =>
    intro i _ h31 hfuel
    omega
  | succ fuel ih =>
    intro i hi h31 hfuel
    rw [copyName]
    rcases Nat.lt_or_ge i (min (firstWord input).length 31) with hlt | hge
    · obtain ⟨hat, hnul, hspace⟩ := charAt_of_lt (show i < (firstWord input).length by omega)
      have htake : (firstWord input).take i ++ [charAt input i] = (firstWord input).take (i + 1) := by
        rw [List.take_add_one, hat]
        rfl
      rw [if_pos ⟨hnul, hspace, by omega⟩, htake]
      exact ih (i + 1) (by omega) (by omega) (by omega)
    · have hstop : ¬ (charAt input i ≠ 0 ∧ charAt input i ≠ space ∧ i < 31) := by
        rintro ⟨hnul, hspace, hroom⟩
        obtain rfl : i = (firstWord input).length := by omega
        rcases charAt_length input with ⟨h0, -⟩ | ⟨hsp, -⟩
        · exact hnul h0
        · exact hspace hsp
      rw [if_neg hstop]
      refine Prod.ext (by simp only; omega) ?_
      rcases Nat.lt_or_ge i 31 with hroom | hcut
      · rw [List.take_of_length_le (by omega), List.take_of_length_le (by omega)]
      · rw [show i = 31 by omega]

/-- What is passed on. -/
def passedOn (input : CString) : List UInt8 :=
  if (firstWord input).length ≤ 31 then arguments input else input.bytes.drop 31

/-- The code's `args`: from where the copying stopped, or one further. -/
theorem args_eq_passedOn (input : CString) :
    (if charAt input (min (firstWord input).length 31) = space then
      input.bytes.drop (min (firstWord input).length 31 + 1)
      else input.bytes.drop (min (firstWord input).length 31)) = passedOn input := by
  rw [passedOn]
  rcases Nat.lt_or_ge 31 (firstWord input).length with hlong | hshort
  · -- the copying stopped inside the word
    rw [min_eq_right (by omega), if_neg (charAt_of_lt hlong).2.2, if_neg (by omega)]
  · rw [min_eq_left hshort, if_pos hshort]
    rcases charAt_length input with ⟨h0, hnil, hargs⟩ | ⟨hsp, hargs⟩
    · rw [h0, if_neg (by decide), hnil, hargs]
    · rw [if_pos hsp, hargs]

/-- **What is called**: the earliest command whose name is the copy. -/
theorem shellDispatch_called (table : List (ShellCommand κ)) (input : CString) :
    (shellDispatch table input).called =
      (table.find? (fun c => c.name.bytes = (firstWord input).take 31)).map
        (fun c => (c.handler, passedOn input)) := by
  have hnul : 0 ∉ (firstWord input).take 31 := fun h0 =>
    input.noNul ((List.takeWhile_prefix _).subset (List.mem_of_mem_take h0))
  have hfind : (fun c : ShellCommand κ => decide (strcmp c.name.bytes ((firstWord input).take 31) = 0)) =
      fun c => decide (c.name.bytes = (firstWord input).take 31) := by
    funext c
    rw [decide_eq_decide, JarvOs.Fs.strcmp_eq_zero_iff c.name.noNul hnul]
  have hcopy := copyName_eq input 32 0 (Nat.zero_le _) (by decide) (by decide)
  rw [List.take_zero] at hcopy
  simp only [shellDispatch, hcopy, hfind, args_eq_passedOn]
  cases table.find? (fun c => c.name.bytes = (firstWord input).take 31) with
  | none => rfl
  | some c => rfl

/-! ## 5. Faithful dispatch -/

/-- Cutting the word leaves something of it in what is passed on. -/
theorem length_arguments_lt {input : CString} (h : 31 < (firstWord input).length) :
    (arguments input).length < (passedOn input).length := by
  have hsplit : firstWord input ++ input.bytes.dropWhile (· ≠ space) = input.bytes :=
    List.takeWhile_append_dropWhile
  have hlen := congrArg List.length hsplit
  rw [List.length_append] at hlen
  rw [passedOn, if_neg (by omega), arguments, List.length_tail, List.length_drop]
  omega

/-- **Faithful dispatch.**  For every table that calls of `shell_register_command` have made and every
line, the shell calls what the line means exactly if the first word has at most 31 characters, or there
is neither a command of that name nor one named by the first 31 of them. -/
theorem dispatch_faithful_iff (cs : List (ShellCommand κ)) (input : CString) :
    (shellDispatch (registerAll cs) input).called = wanted (registerAll cs) input ↔
      (firstWord input).length ≤ 31 ∨ ∀ c ∈ cs.take maxCommands,
        c.name.bytes ≠ firstWord input ∧ c.name.bytes ≠ (firstWord input).take 31 := by
  rw [shellDispatch_called, wanted, registerAll_eq]
  generalize cs.take maxCommands = table
  rcases Nat.lt_or_ge 31 (firstWord input).length with hlong | hshort
  · rw [or_iff_right (by omega)]
    constructor
    · -- a command that is found is called with different arguments, or not at all
      intro heq
      cases hcut : table.find? (fun c => c.name.bytes = (firstWord input).take 31) with
      | none =>
        rw [hcut, Option.map_none, eq_comm, Option.map_eq_none_iff] at heq
        intro c hc
        exact ⟨by simpa using List.find?_eq_none.mp heq c hc,
          by simpa using List.find?_eq_none.mp hcut c hc⟩
      | some c =>
        rw [hcut, Option.map_some, eq_comm, Option.map_eq_some_iff] at heq
        obtain ⟨d, -, hd⟩ := heq
        have hlen := length_arguments_lt hlong
        rw [(Prod.mk.inj hd).2] at hlen
        exact absurd hlen (lt_irrefl _)
    · intro hnone
      rw [List.find?_eq_none.mpr (fun c hc => by simpa using (hnone c hc).2),
        List.find?_eq_none.mpr (fun c hc => by simpa using (hnone c hc).1)]
      rfl
  · refine iff_of_true ?_ (Or.inl hshort)
    rw [List.take_of_length_le hshort, passedOn, if_pos hshort]

/-- **A command that was not asked for**: its name are 31 `a`, the word on the line are 32. -/
theorem cut_word_dispatched :
    let name : CString := ⟨List.replicate 31 0x61, by decide⟩
    let input : CString := ⟨List.replicate 32 0x61, by decide⟩
    shellDispatch (registerAll [⟨name, (), ⟨[], by decide⟩⟩]) input = .handled () [0x61] ∧
      wanted (registerAll [⟨name, (), ⟨[], by decide⟩⟩]) input = none := by
  refine ⟨by decide +kernel, by decide +kernel⟩

end JarvOs.Shell
