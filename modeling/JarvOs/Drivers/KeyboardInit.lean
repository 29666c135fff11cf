/-
# Setting up the keyboard controller (`hal_keyboard_init` in `kernel/drivers/keyboard.c`)

The controller takes one byte at a time from the processor and has one byte at a time for it.  It does both
in its own time, and so does the keyboard.  `hal_keyboard_init` therefore waits for the input buffer to be
empty in front of every write, and for the output buffer to be full in front of its one read.

The first wait is all that is needed: in no interleaving is a byte overwritten that the controller has not
taken, and in every fair one the code comes to its end (`init_completes`).

The second is not.  The byte that is there first need not be the answer to the command; it may be a key that
was pressed while the loader ran, and then THAT is taken for the configuration.  `init_configures` says what
becomes of it: the four bits that the code sets and clears are right whatever was read, and the other four
are those of the configuration if and only if the byte that came first agrees with it there.
-/
import JarvOs.Lib.Fair

namespace JarvOs.Drivers.KeyboardInit

open JarvOs.Lib

/-! ## 1. The controller -/

/-- Whether a byte for the processor answers a command. -/
inductive Source
  | answer | other
deriving DecidableEq, Repr

/-- The controller.  `input` has the port with the byte (`true` for the command port), `pending` an answer
that waits for the output buffer, `awaiting` says that command 0x60 has been taken and its byte is to come.
`told` are the bytes passed on to the keyboard, `arrived` those that have come to the output buffer. -/
structure Controller where
  config : UInt8
  input : Option (Bool × UInt8)
  output : Option (Source × UInt8)
  pending : Option UInt8
  awaiting : Bool
  told : List UInt8
  arrived : List (Source × UInt8)
  overwritten : Bool
deriving DecidableEq, Repr

namespace Controller

/-- `inb(KB_STATUS_PORT)`, the two bits that are looked at. -/
def status (c : Controller) : UInt8 :=
  (if c.output.isSome then 0x01 else 0x00) ||| (if c.input.isSome then 0x02 else 0x00)

/-- `outb` to the command port or to the data port. -/
def outb (c : Controller) (command : Bool) (b : UInt8) : Controller :=
  { c with input := some (command, b), overwritten := c.overwritten || c.input.isSome }

/-- The controller takes what is in its input buffer. -/
def serve (c : Controller) : Controller :=
  match c.input with
  | none => c
  | some (true, b) =>
    let c := { c with input := none, awaiting := false }
    if b = 0xAE then { c with config := c.config &&& ~~~0x10 }
    else if b = 0x20 then { c with pending := some c.config }
    else if b = 0x60 then { c with awaiting := true }
    else c
  | some (false, b) =>
    if c.awaiting then { c with input := none, awaiting := false, config := b }
    else { c with input := none, told := c.told ++ [b] }

/-- A byte comes to the output buffer. -/
def arrive (c : Controller) (x : Source × UInt8) : Controller :=
  { c with output := some x, arrived := c.arrived ++ [x] }

/-- The answer comes when there is room for it. -/
def reply (c : Controller) : Controller :=
  match c.pending, c.output with
  | some b, none => { c with pending := none }.arrive (.answer, b)
  | _, _ => c

/-- A byte comes from the keyboard, if its clock is on and there is room for it. -/
def key (c : Controller) (b : UInt8) : Controller :=
  if c.config &&& 0x10 = 0 ∧ c.output = none then c.arrive (.other, b) else c

end Controller

/-! ## 2. The code -/

/-- The accesses of `hal_keyboard_init`. -/
inductive Instr
  | waitIbf
  | waitObf
  | command (b : UInt8)
  | data (b : UInt8)
  | readStatus
  | dataStatus
deriving DecidableEq, Repr

/-- `hal_keyboard_init` -/
def halKeyboardInit : List Instr :=
  [.waitIbf, .command 0xAE,
   .waitIbf, .command 0x20, .waitObf, .readStatus,
   .waitIbf, .command 0x60, .waitIbf, .dataStatus,
   .waitIbf, .data 0xF4]

/-- What is done to `status` after it is read. -/
def adjust (status : UInt8) : UInt8 := (((status ||| 0x01) &&& ~~~0x02) &&& ~~~0x10) ||| 0x40

/-- The controller, what is left of the code, and the variable `status`. -/
structure System where
  controller : Controller
  code : List Instr
  status : UInt8
deriving DecidableEq, Repr

/-- The processor executes an access, or looks once more at the status port. -/
def System.cpu (s : System) : System :=
  match s.code with
  | [] => s
  | .waitIbf :: rest => if s.controller.status &&& 0x02 ≠ 0 then s else { s with code := rest }
  | .waitObf :: rest => if s.controller.status &&& 0x01 = 0 then s else { s with code := rest }
  | .command b :: rest => ⟨s.controller.outb true b, rest, s.status⟩
  | .data b :: rest => ⟨s.controller.outb false b, rest, s.status⟩
  | .dataStatus :: rest => ⟨s.controller.outb false s.status, rest, s.status⟩
  | .readStatus :: rest =>
    ⟨{ s.controller with output := none }, rest, adjust ((s.controller.output.map Prod.snd).getD 0x00)⟩

/-- Who does something. -/
inductive Op
  | cpu | serve | reply | key (b : UInt8)
deriving DecidableEq, Repr

/-- One step. -/
def System.step (s : System) : Op → System
  | .cpu => s.cpu
  | .serve => { s with controller := s.controller.serve }
  | .reply => { s with controller := s.controller.reply }
  | .key b => { s with controller := s.controller.key b }

/-- In front of `hal_keyboard_init`.  The variable is not initialised. -/
def start (c₀ : Controller) (junk : UInt8) : System := ⟨c₀, halKeyboardInit, junk⟩

/-- A controller with nothing to do, but perhaps with a byte for the processor. -/
structure Idle (c : Controller) : Prop where
  input : c.input = none
  pending : c.pending = none
  awaiting : c.awaiting = false
  overwritten : c.overwritten = false
  arrived : c.arrived = c.output.toList
  output : ∀ b, c.output ≠ some (.answer, b)

/-! ## 3. Bits -/

theorem forall_byte {P : UInt8 → Prop} (h : ∀ v : BitVec 8, P (UInt8.ofBitVec v)) (b : UInt8) : P b :=
  h b.toBitVec

theorem adjust_set (b : UInt8) : adjust b &&& 0x53 = 0x41 :=
  forall_byte (P := fun b => adjust b &&& 0x53 = 0x41) (by decide +kernel) b

theorem adjust_eq (b : UInt8) : adjust b = (b &&& 0xAC) ||| 0x41 :=
  forall_byte (P := fun b => adjust b = (b &&& 0xAC) ||| 0x41) (by decide +kernel) b

theorem adjust_kept (b : UInt8) : adjust b &&& 0xAC = b &&& 0xAC :=
  forall_byte (P := fun b => adjust b &&& 0xAC = b &&& 0xAC) (by decide +kernel) b

/-- Four bits of what was read survive. -/
theorem adjust_eq_iff (b c : UInt8) : adjust b = adjust c ↔ b &&& 0xAC = c &&& 0xAC := by
  constructor
  · intro h
    rw [← adjust_kept, h, adjust_kept]
  · intro h
    rw [adjust_eq, h, adjust_eq]

variable {c c₀ : Controller} {s : System} {k : Nat}

theorem status_ibf (c : Controller) : c.status &&& 0x02 = 0 ↔ c.input = none := by
  rw [Controller.status]
  cases c.input <;> cases c.output <;> simp <;> decide

theorem status_obf (c : Controller) : c.status &&& 0x01 = 0 ↔ c.output = none := by
  rw [Controller.status]
  cases c.input <;> cases c.output <;> simp <;> decide

/-! ## 4. The steps of the controller -/

@[simp] theorem serve_input (c : Controller) : c.serve.input = none := by
  unfold Controller.serve
  split
  · assumption
  · simp only
    split_ifs <;> rfl
  · split_ifs <;> rfl

theorem serve_of_none (h : c.input = none) : c.serve = c := by
  rw [Controller.serve, h]

@[simp] theorem serve_serve (c : Controller) : c.serve.serve = c.serve := serve_of_none (serve_input c)

/-- What is taken from the input buffer does not touch the output buffer. -/
theorem serve_output (c : Controller) : c.serve.output = c.output ∧ c.serve.arrived = c.arrived ∧
    c.serve.overwritten = c.overwritten := by
  unfold Controller.serve
  split
  · exact ⟨rfl, rfl, rfl⟩
  · simp only
    split_ifs <;> exact ⟨rfl, rfl, rfl⟩
  · split_ifs <;> exact ⟨rfl, rfl, rfl⟩

/-- A byte that comes to the output buffer changes nothing for the input. -/
theorem serve_arrive (c : Controller) (x : Source × UInt8) : (c.arrive x).serve = c.serve.arrive x := by
  unfold Controller.serve Controller.arrive
  simp only
  split
  · rfl
  · split_ifs <;> rfl
  · split_ifs <;> rfl

/-- Nor does an answer that is taken away. -/
theorem serve_pending (c : Controller) {p : Option UInt8} (hp : p = c.pending ∨ p = none) :
    { c with pending := p }.serve.config = c.serve.config ∧
    { c with pending := p }.serve.awaiting = c.serve.awaiting ∧
    { c with pending := p }.serve.told = c.serve.told ∧
    (∀ b, { c with pending := p }.serve.pending = some b → c.serve.pending = some b) := by
  have hsub : ∀ b, p = some b → c.pending = some b := by
    rintro b rfl
    exact (hp.resolve_right (Option.some_ne_none b)).symm
  unfold Controller.serve
  simp only
  split
  · exact ⟨rfl, rfl, rfl, hsub⟩
  · split_ifs <;> first | exact ⟨rfl, rfl, rfl, hsub⟩ | exact ⟨rfl, rfl, rfl, fun _ hb => hb⟩
  · split_ifs <;> exact ⟨rfl, rfl, rfl, hsub⟩

/-! ## 5. The state at each point of the code -/

/-- The configuration with the keyboard's clock on. -/
def enabled (c₀ : Controller) : UInt8 := c₀.config &&& ~~~0x10

/-- What the configuration is at point `k`, once the controller has taken what was written. -/
def configAt (c₀ : Controller) (status : UInt8) (k : Nat) : UInt8 :=
  if k < 2 then c₀.config else if k < 10 then enabled c₀ else status

/-- **At point `k`.**  What is said of the controller is said of it AFTER it has taken what is in its input
buffer (`serve`), so that it does not matter when it does. -/
structure At (c₀ : Controller) (k : Nat) (s : System) : Prop where
  le : k ≤ 12
  code : s.code = halKeyboardInit.drop k
  input : k ∈ [1, 3, 7, 9, 11] → s.controller.input = none
  config : s.controller.serve.config = configAt c₀ s.status k
  awaiting : s.controller.serve.awaiting = decide (k = 8 ∨ k = 9)
  told : s.controller.serve.told = if k = 12 then c₀.told ++ [0xF4] else c₀.told
  overwritten : s.controller.overwritten = false
  pending : ∀ b, s.controller.pending = some b ∨ s.controller.serve.pending = some b →
    4 ≤ k ∧ b = enabled c₀
  unread : k < 6 → s.controller.arrived = s.controller.output.toList
  answer : k < 6 → ∀ b, s.controller.output = some (.answer, b) → b = enabled c₀
  full : k = 5 → s.controller.output ≠ none
  coming : k = 4 → s.controller.output ≠ none ∨ s.controller.serve.pending ≠ none
  read : 6 ≤ k → ∃ src r, s.controller.arrived.head? = some (src, r) ∧ s.status = adjust r ∧
    (src = .answer → r = enabled c₀)

theorem at_start (h : Idle c₀) (junk : UInt8) : At c₀ 0 (start c₀ junk) := by
  have hserve : c₀.serve = c₀ := serve_of_none h.input
  refine ⟨by decide, rfl, fun _ => h.input, by rw [start, hserve]; rfl,
    by rw [start, hserve, h.awaiting]; rfl, by rw [start, hserve]; rfl, h.overwritten, ?_,
    fun _ => h.arrived, fun _ b hb => absurd hb (h.output b), nofun, nofun, nofun⟩
  intro b hb
  rw [start, hserve, h.pending] at hb
  simp at hb

theorem At.serve (h : At c₀ k s) : At c₀ k (s.step .serve) := by
  obtain ⟨hout, harr, hover⟩ := serve_output s.controller
  simp only [System.step]
  refine ⟨h.le, h.code, fun _ => serve_input _, ?_, ?_, ?_, hover.trans h.overwritten, ?_, ?_, ?_, ?_, ?_, ?_⟩
  · rw [serve_serve, h.config]
  · rw [serve_serve, h.awaiting]
  · rw [serve_serve, h.told]
  · rw [serve_serve]
    exact fun b hb => h.pending b (Or.inr (or_self_iff.mp hb))
  · rw [hout, harr]
    exact h.unread
  · rw [hout]
    exact h.answer
  · rw [hout]
    exact h.full
  · rw [hout, serve_serve]
    exact h.coming
  · rw [harr]
    exact h.read

/-- A byte that comes finds the output buffer empty, and answers are what they should be. -/
theorem At.arrive (h : At c₀ k s) {x : Source × UInt8} (hempty : s.controller.output = none)
    (hx : ∀ b, x = (.answer, b) → b = enabled c₀) {p : Option UInt8}
    (hp : p = s.controller.pending ∨ p = none) :
    At c₀ k { s with controller := { s.controller with pending := p }.arrive x } := by
  obtain ⟨hconfig, hawait, htold, hpend⟩ := serve_pending s.controller hp
  refine ⟨h.le, h.code, h.input, ?_, ?_, ?_, h.overwritten, ?_, fun hk => ?_, fun _ b hb => ?_, ?_, ?_, ?_⟩
  · rw [serve_arrive]
    exact hconfig.trans h.config
  · rw [serve_arrive]
    exact hawait.trans h.awaiting
  · rw [serve_arrive]
    exact htold.trans h.told
  · rw [serve_arrive]
    rintro b (hb | hb)
    · refine h.pending b (Or.inl ?_)
      rcases hp with rfl | rfl
      · exact hb
      · exact absurd hb.symm (Option.some_ne_none b)
    · exact h.pending b (Or.inr (hpend b hb))
  · have := h.unread hk
    rw [hempty] at this
    simp [Controller.arrive, this]
  · exact hx b (Option.some.inj hb)
  · exact fun _ => Option.some_ne_none x
  · exact fun _ => Or.inl (Option.some_ne_none x)
  · intro hk
    obtain ⟨src, r, hhead, hrest⟩ := h.read hk
    exact ⟨src, r, by simp [Controller.arrive, List.head?_append, hhead], hrest⟩

theorem At.key (h : At c₀ k s) (b : UInt8) : At c₀ k (s.step (.key b)) := by
  simp only [System.step, Controller.key]
  split_ifs with hroom
  · exact h.arrive hroom.2 (fun b' hb' => by simp at hb') (Or.inl rfl)
  · exact h

theorem At.reply (h : At c₀ k s) : At c₀ k (s.step .reply) := by
  simp only [System.step, Controller.reply]
  split
  · rename_i b hpend hempty
    refine h.arrive hempty (fun b' hb' => ?_) (Or.inr rfl)
    obtain rfl : b = b' := (Prod.mk.inj hb').2
    exact (h.pending b (Or.inl hpend)).2
  · exact h

/-! ## 6. The steps of the code -/

/-- A wait for the input buffer is over. -/
theorem At.waited (h : At c₀ k s) (hk : k = 0 ∨ k = 2 ∨ k = 6 ∨ k = 8 ∨ k = 10)
    (hempty : s.controller.input = none) :
    At c₀ (k + 1) { s with code := halKeyboardInit.drop (k + 1) } := by
  refine ⟨by omega, rfl, fun _ => hempty, ?_, ?_, ?_, h.overwritten, fun b hb => ?_,
    fun _ => h.unread (by omega), fun _ => h.answer (by omega), by omega, by omega,
    fun _ => h.read (by omega)⟩
  · rw [h.config]
    rcases hk with rfl | rfl | rfl | rfl | rfl <;> rfl
  · rw [h.awaiting]
    rcases hk with rfl | rfl | rfl | rfl | rfl <;> rfl
  · rw [h.told, if_neg (by omega), if_neg (by omega)]
  · obtain ⟨hle, hb⟩ := h.pending b hb
    exact ⟨by omega, hb⟩

/-- A byte has been written to an empty input buffer.  What it does is seen when the controller takes it. -/
theorem At.wrote (h : At c₀ k s) (hk : k = 1 ∨ k = 3 ∨ k = 7 ∨ k = 9 ∨ k = 11) {command : Bool} {b : UInt8}
    (hconfig : (s.controller.outb command b).serve.config = configAt c₀ s.status (k + 1))
    (hawait : (s.controller.outb command b).serve.awaiting = decide (k + 1 = 8 ∨ k + 1 = 9))
    (htold : (s.controller.outb command b).serve.told =
      if k + 1 = 12 then c₀.told ++ [0xF4] else c₀.told)
    (hpend : ∀ a, (s.controller.outb command b).serve.pending = some a →
      s.controller.pending = some a ∨ 4 ≤ k + 1 ∧ a = enabled c₀)
    (hcoming : k = 3 → (s.controller.outb command b).serve.pending ≠ none) :
    At c₀ (k + 1) ⟨s.controller.outb command b, halKeyboardInit.drop (k + 1), s.status⟩ := by
  have hempty := h.input (by simpa using hk)
  refine ⟨by omega, rfl, fun hin => ?_, hconfig, hawait, htold, ?_, ?_, fun _ => h.unread (by omega),
    fun _ => h.answer (by omega), by omega, fun hk' => Or.inr (hcoming (by omega)),
    fun _ => h.read (by omega)⟩
  · simp only [List.mem_cons, List.not_mem_nil, or_false] at hin
    omega
  · rw [Controller.outb, h.overwritten, hempty]
    rfl
  · intro a ha
    rcases ha.elim Or.inl (hpend a) with ha | ha
    · obtain ⟨hle, ha⟩ := h.pending a (Or.inl ha)
      exact ⟨by omega, ha⟩
    · exact ha

/-- The byte that came first is read. -/
theorem At.readStatus (h : At c₀ 5 s) :
    At c₀ 6 ⟨{ s.controller with output := none }, halKeyboardInit.drop 6,
      adjust ((s.controller.output.map Prod.snd).getD 0x00)⟩ := by
  obtain ⟨⟨src, r⟩, hx⟩ := Option.ne_none_iff_exists'.mp (h.full rfl)
  have hserve : { s.controller with output := none }.serve =
      { s.controller.serve with output := none } := by
    unfold Controller.serve
    simp only
    split
    · rfl
    · split_ifs <;> rfl
    · split_ifs <;> rfl
  refine ⟨by decide, rfl, nofun, ?_, ?_, ?_, h.overwritten, ?_, nofun, nofun, nofun, nofun, fun _ => ?_⟩
  · rw [hserve]
    exact h.config
  · rw [hserve]
    exact h.awaiting
  · rw [hserve]
    exact h.told
  · rw [hserve]
    exact fun b hb => ⟨by decide, (h.pending b hb).2⟩
  · refine ⟨src, r, ?_, ?_, ?_⟩
    · simp [h.unread (by decide), hx]
    · simp [hx]
    · rintro rfl
      exact h.answer (by decide) r hx

theorem At.cpu_wait (h : At c₀ k s) (hk : k = 0 ∨ k = 2 ∨ k = 6 ∨ k = 8 ∨ k = 10) :
    (s.cpu = s ∧ s.controller.input ≠ none) ∨ At c₀ (k + 1) s.cpu := by
  have hcode : s.code = .waitIbf :: halKeyboardInit.drop (k + 1) := by
    rw [h.code]
    rcases hk with rfl | rfl | rfl | rfl | rfl <;> rfl
  rw [System.cpu, hcode]
  simp only
  split_ifs with hfull
  · exact Or.inl ⟨rfl, fun hnone => hfull ((status_ibf _).mpr hnone)⟩
  · exact Or.inr (h.waited hk ((status_ibf _).mp (not_not.mp hfull)))

theorem At.cpu_write (h : At c₀ k s) (hk : k = 1 ∨ k = 3 ∨ k = 7 ∨ k = 9 ∨ k = 11) :
    At c₀ (k + 1) s.cpu := by
  have hempty := h.input (by simpa using hk)
  have hserve : s.controller.serve = s.controller := serve_of_none hempty
  have hconfig := h.config
  have hawait := h.awaiting
  have htold := h.told
  rw [hserve] at hconfig hawait htold
  have hcode := h.code
  -- each byte, and what the controller makes of it
  rcases hk with rfl | rfl | rfl | rfl | rfl <;> rw [System.cpu, hcode] <;>
    refine h.wrote (by omega) ?_ ?_ ?_ (fun a => ?_) ?_ <;>
    simp +contextual [Controller.serve, Controller.outb, hconfig, hawait, htold, configAt, enabled]

/-- **One step of the code**: it goes on to the next point, unless it has to wait. -/
theorem At.cpu (h : At c₀ k s) (hk : k < 12) :
    (s.cpu = s ∧ (s.controller.input ≠ none ∨ k = 4 ∧ s.controller.output = none)) ∨
      At c₀ (k + 1) s.cpu := by
  have hkind : (k = 0 ∨ k = 2 ∨ k = 6 ∨ k = 8 ∨ k = 10) ∨ (k = 1 ∨ k = 3 ∨ k = 7 ∨ k = 9 ∨ k = 11) ∨
      k = 4 ∨ k = 5 := by omega
  rcases hkind with hwait | hwrite | rfl | rfl
  · exact (h.cpu_wait hwait).imp_left (fun hstay => ⟨hstay.1, Or.inl hstay.2⟩)
  · exact Or.inr (h.cpu_write hwrite)
  · rw [System.cpu, h.code]
    simp only [halKeyboardInit, List.drop_succ_cons, List.drop_zero]
    split_ifs with hfull
    · exact Or.inl ⟨rfl, Or.inr ⟨trivial, (status_obf _).mp hfull⟩⟩
    · refine Or.inr ⟨by decide, rfl, nofun, h.config, h.awaiting, h.told, h.overwritten,
        fun b hb => ⟨by decide, (h.pending b hb).2⟩, fun _ => h.unread (by decide),
        fun _ => h.answer (by decide), fun _ hnone => hfull ((status_obf _).mpr hnone), nofun, nofun⟩
  · rw [System.cpu, h.code]
    exact Or.inr h.readStatus

/-! ## 7. Every interleaving -/

/-- At some point of the code. -/
def Somewhere (c₀ : Controller) (s : System) : Prop := ∃ k, At c₀ k s

/-- Whether the controller has something to take. -/
def busy (c : Controller) : Nat := if c.input = none then 0 else 1

/-- What is left to do. -/
def rank (s : System) : Nat := 2 * s.code.length + busy s.controller

theorem busy_le (c : Controller) : busy c ≤ 1 := by
  rw [busy]
  split_ifs <;> decide

theorem busy_eq_zero {c : Controller} : busy c = 0 ↔ c.input = none := by
  rw [busy]
  split_ifs with h <;> simp [h]

theorem busy_congr {c c' : Controller} (h : c'.input = c.input) : busy c' = busy c := by
  rw [busy, busy, h]

theorem At.length (h : At c₀ k s) : s.code.length = 12 - k := by
  rw [h.code, List.length_drop]
  rfl

theorem input_reply (c : Controller) : c.reply.input = c.input := by
  unfold Controller.reply
  split <;> rfl

theorem input_key (c : Controller) (b : UInt8) : (c.key b).input = c.input := by
  unfold Controller.key
  split_ifs <;> rfl

/-- **One step** keeps to the table and undoes nothing.  If it gets nothing done then the code and the input
buffer are as they were, and a byte for the processor is still there. -/
theorem At.step (h : At c₀ k s) (o : Op) : Somewhere c₀ (s.step o) ∧
    (rank (s.step o) < rank s ∨
      (s.step o).code = s.code ∧ (s.step o).controller.input = s.controller.input ∧
      (s.controller.output ≠ none → (s.step o).controller.output ≠ none)) := by
  cases o with
  | serve =>
    refine ⟨⟨k, h.serve⟩, ?_⟩
    by_cases hempty : s.controller.input = none
    · have hstay : s.step .serve = s := by rw [System.step, serve_of_none hempty]
      rw [hstay]
      exact Or.inr ⟨rfl, rfl, id⟩
    · have hserved : busy s.controller.serve = 0 := busy_eq_zero.mpr (serve_input _)
      have hbusy : busy s.controller ≠ 0 := fun h0 => hempty (busy_eq_zero.mp h0)
      exact Or.inl (by simp only [rank, System.step]; omega)
  | reply =>
    refine ⟨⟨k, h.reply⟩, Or.inr ⟨rfl, input_reply _, ?_⟩⟩
    simp only [System.step, Controller.reply]
    split
    · exact fun _ => Option.some_ne_none _
    · exact id
  | key b =>
    refine ⟨⟨k, h.key b⟩, Or.inr ⟨rfl, input_key _ _, ?_⟩⟩
    simp only [System.step, Controller.key]
    split_ifs
    · exact fun _ => Option.some_ne_none _
    · exact id
  | cpu =>
    have hstays : s.cpu = s → Somewhere c₀ (s.step .cpu) ∧
        (rank (s.step .cpu) < rank s ∨ (s.step .cpu).code = s.code ∧
          (s.step .cpu).controller.input = s.controller.input ∧
          (s.controller.output ≠ none → (s.step .cpu).controller.output ≠ none)) := by
      intro hstay
      rw [System.step, hstay]
      exact ⟨⟨k, h⟩, Or.inr ⟨rfl, rfl, id⟩⟩
    rcases Nat.lt_or_ge k 12 with hk | hk
    · rcases h.cpu hk with ⟨hstay, -⟩ | hnext
      · exact hstays hstay
      · refine ⟨⟨k + 1, hnext⟩, Or.inl ?_⟩
        have hbusy := busy_le s.cpu.controller
        simp only [rank, System.step, hnext.length, h.length]
        omega
    · have hdone : s.code = [] := List.length_eq_zero_iff.mp (by rw [h.length]; omega)
      exact hstays (by rw [System.cpu, hdone])

theorem somewhere_step (s : System) (o : Op) (h : Somewhere c₀ s) :
    Somewhere c₀ (s.step o) ∧ rank (s.step o) ≤ rank s := by
  obtain ⟨k, h⟩ := h
  obtain ⟨hnext, hlt | ⟨hcode, hinput, -⟩⟩ := h.step o
  · exact ⟨hnext, hlt.le⟩
  · refine ⟨hnext, le_of_eq ?_⟩
    rw [rank, rank, hcode, busy_congr hinput]

theorem somewhere_run (h : Idle c₀) (junk : UInt8) (ops : List Op) :
    Somewhere c₀ (ops.foldl System.step (start c₀ junk)) :=
  Fair.foldl_inv (fun s o hs => (somewhere_step s o hs).1) ops ⟨0, at_start h junk⟩

/-- **What the controller is set to.**  In every interleaving of the code with the controller and the
keyboard no byte of the code is lost.  When it is through and the controller has taken its last byte, the
keyboard has been told to scan; the configuration has the bits that the code sets and clears, and of the
other bits those of the byte that came FIRST. -/
theorem init_configures (hidle : Idle c₀) (junk : UInt8) {ops : List Op}
    (hs : ops.foldl System.step (start c₀ junk) = s) :
    s.controller.overwritten = false ∧
    (s.code = [] → s.controller.input = none →
      s.controller.told = c₀.told ++ [0xF4] ∧ s.controller.config &&& 0x53 = 0x41 ∧
      ∃ src r, s.controller.arrived.head? = some (src, r) ∧ (src = .answer → r = enabled c₀) ∧
        (s.controller.config = adjust c₀.config ↔ r &&& 0xAC = c₀.config &&& 0xAC)) := by
  obtain ⟨k, h⟩ := somewhere_run hidle junk ops
  rw [hs] at h
  refine ⟨h.overwritten, fun hcode hempty => ?_⟩
  obtain rfl : k = 12 := by
    have hlen := h.length
    have hle := h.le
    rw [hcode, List.length_nil] at hlen
    omega
  have hconfig := h.config
  have htold := h.told
  rw [serve_of_none hempty] at hconfig htold
  obtain ⟨src, r, hhead, hstatus, hanswer⟩ := h.read (by decide)
  have hset : s.controller.config = adjust r := hconfig.trans hstatus
  refine ⟨htold, ?_, src, r, hhead, hanswer, ?_⟩
  · rw [hset, adjust_set]
  · rw [hset, adjust_eq_iff]

/-- The turns that get the code on. -/
def turns : List Op := [.serve, .reply, .cpu]

/-- What has been achieved when these turns are still to come. -/
def stage (r : List Op) (s : System) : Prop :=
  match r with
  | [.serve, .reply, .cpu] => 0 < rank s
  | [.reply, .cpu] => s.code ≠ [] ∧ s.controller.input = none
  | [.cpu] => s.code ≠ [] ∧ s.controller.input = none ∧
    (s.code = halKeyboardInit.drop 4 → s.controller.output ≠ none)
  | _ => False

theorem stage_keep (r : List Op) (s : System) (o : Op) (h : Somewhere c₀ s) (hr : stage r s)
    (hrank : rank (s.step o) = rank s) : stage r (s.step o) := by
  obtain ⟨k, h⟩ := h
  obtain ⟨hcode, hinput, houtput⟩ := (h.step o).2.resolve_left (by omega)
  unfold stage at hr ⊢
  split at hr
  · exact hrank ▸ hr
  · exact ⟨hcode ▸ hr.1, hinput ▸ hr.2⟩
  · exact ⟨hcode ▸ hr.1, hinput ▸ hr.2.1, fun h4 => houtput (hr.2.2 (hcode ▸ h4))⟩
  · exact hr.elim

theorem stage_turn (o : Op) (r : List Op) (s : System) (h : Somewhere c₀ s) (hr : stage (o :: r) s)
    (hrank : rank (s.step o) = rank s) : stage r (s.step o) := by
  obtain ⟨k, h⟩ := h
  obtain ⟨hcode, hinput, houtput⟩ := (h.step o).2.resolve_left (by omega)
  unfold stage at hr
  split at hr
  · -- the input buffer was empty, so it is code that is left
    rename_i hturn
    obtain ⟨rfl, rfl⟩ := List.cons.inj hturn
    have hempty : (s.step .serve).controller.input = none := serve_input _
    refine ⟨fun hdone => ?_, hempty⟩
    have hbusy := busy_eq_zero.mpr hempty
    rw [← hrank, rank, hdone, hbusy] at hr
    exact absurd hr (by decide)
  · -- if the code waits for a byte, the answer has come by now
    rename_i hturn
    obtain ⟨rfl, rfl⟩ := List.cons.inj hturn
    refine ⟨hcode ▸ hr.1, hinput ▸ hr.2, fun h4 => ?_⟩
    obtain rfl : k = 4 := by
      have hlen := h.length
      have hle := h.le
      rw [← hcode, h4, List.length_drop] at hlen
      simp only [halKeyboardInit, List.length_cons, List.length_nil] at hlen
      omega
    rcases h.coming rfl with hout | hpend
    · exact houtput hout
    · rw [serve_of_none hr.2] at hpend
      obtain ⟨b, hb⟩ := Option.ne_none_iff_exists'.mp hpend
      by_cases hout : s.controller.output = none
      · simp [System.step, Controller.reply, hb, hout, Controller.arrive]
      · exact houtput hout
  · -- nothing to wait for: the code goes on
    rename_i hturn
    obtain ⟨rfl, rfl⟩ := List.cons.inj hturn
    have hk : k < 12 := by
      by_contra hge
      exact hr.1 (List.length_eq_zero_iff.mp (by rw [h.length]; omega))
    rcases h.cpu hk with ⟨-, hwait | ⟨rfl, hwait⟩⟩ | hnext
    · exact absurd hr.2.1 hwait
    · exact absurd hwait (hr.2.2 h.code)
    · have hlen := hnext.length
      rw [← System.step, hcode, h.length] at hlen
      omega
  · exact hr.elim

/-- **The initialisation comes to its end** in every interleaving in which the controller and the processor
have their turns, whatever the keyboard does in between. -/
theorem init_completes (hidle : Idle c₀) (junk : UInt8) {blocks : List (List Op)}
    (hfair : ∀ os ∈ blocks, turns.Sublist os) (hlen : 24 ≤ blocks.length) :
    (blocks.flatten.foldl System.step (start c₀ junk)).code = [] ∧
      (blocks.flatten.foldl System.step (start c₀ junk)).controller.input = none := by
  have hstart : rank (start c₀ junk) = 24 := by
    simp [rank, start, busy_eq_zero.mpr hidle.input, halKeyboardInit]
  have hblock : ∀ (os : List Op) s, turns.Sublist os → Somewhere c₀ s → 0 < rank s →
      rank (os.foldl System.step s) < rank s := fun os s hos hs hpos =>
    Fair.foldl_rank_lt somewhere_step stage_keep stage_turn (fun _ h => h) hos hs hpos
  have hrank := Fair.foldl_rank_le somewhere_step hblock blocks hfair ⟨0, at_start hidle junk⟩
  rw [hstart] at hrank
  rw [rank] at hrank
  exact ⟨List.length_eq_zero_iff.mp (by omega), busy_eq_zero.mp (by omega)⟩

/-- A controller as it is after the loader, with a key code left over. -/
def leftOver : Controller := ⟨0x65, none, some (.other, 0x1C), none, false, [], [(.other, 0x1C)], false⟩

theorem idle_leftOver : Idle leftOver := ⟨rfl, rfl, rfl, rfl, rfl, by simp [leftOver]⟩

/-- The code 0x1C is taken for the configuration 0x65: bit 3 is set and bit 5 is lost. -/
theorem init_configures_leftOver : ∃ s, (List.replicate 24 turns).flatten.foldl System.step
      (start leftOver 0x00) = s ∧ s.code = [] ∧ s.controller.config = 0x4D ∧
    s.controller.overwritten = false ∧ adjust leftOver.config = 0x65 := by
  refine ⟨_, rfl, by decide +kernel, by decide +kernel, ?_, by decide +kernel⟩
  exact (init_configures idle_leftOver 0x00 rfl).1

theorem init_completes_leftOver :
    ((List.replicate 24 turns).flatten.foldl System.step (start leftOver 0x00)).code = [] :=
  (init_completes idle_leftOver 0x00
    (fun _ hos => List.eq_of_mem_replicate hos ▸ List.Sublist.refl turns) (by simp)).1

end JarvOs.Drivers.KeyboardInit
