/-
# The serial port (`kernel/drivers/serial.c`)

`serial_write_byte` waits until the transmitter has nothing left to hold and then writes one byte.  The
test and the write are two accesses, with interrupts on, and the port has many users: the stages of boot,
the system call stub, `sys_write` of every process.  Whoever is switched to in between makes the same test
with the same result, and then both write.

What saves them is the 16 bytes `hal_serial_init` asks for.  A writer that has seen the transmitter empty
puts in ONE byte before it looks again; so with `n` writers there are never more than `n` bytes held, and
`serial_lossless_iff` is exact: no interleaving of the writers with the transmitter loses a byte if and only
if there are at most 16 writers.  Nor is anything reordered (`serial_in_order`).

`hal_serial_init` itself does not wait.  It clears what the transmitter holds, so of the text before it the
last bytes may be missing (`halSerialInit_spec`).
-/
import JarvOs.Lib.Trace

namespace JarvOs.Drivers.Serial

open JarvOs.Lib

/-! ## 1. The transmitter -/

/-- The registers of a 16550 as far as it sends, the bytes it holds, the one it is shifting out, those on
the wire and those it has dropped.  A byte comes with a mark that says whose it is. -/
structure Uart (α : Type) where
  ier : UInt8
  lcr : UInt8
  mcr : UInt8
  dll : UInt8
  dlm : UInt8
  fifoOn : Bool
  holding : List α
  shift : Option α
  wire : List α
  lost : List α

namespace Uart

variable {α : Type}

/-- `SERIAL_LCR_DLAB` -/
def dlab (u : Uart α) : Bool := u.lcr &&& 0x80 != 0

/-- How much can be held. -/
def capacity (u : Uart α) : Nat := if u.fifoOn then 16 else 1

/-- A byte to send.  A full queue does not take it; a single register forgets what it had. -/
def transmit (u : Uart α) (a : α) : Uart α :=
  if u.holding.length < u.capacity then { u with holding := u.holding ++ [a] }
  else if u.fifoOn then { u with lost := u.lost ++ [a] }
  else { u with holding := [a], lost := u.lost ++ u.holding }

/-- The FIFO control register.  Turning the queue on or off empties it, and so does bit 2. -/
def control (u : Uart α) (val : UInt8) : Uart α :=
  let on := val &&& 0x01 != 0
  if on != u.fifoOn || (on && val &&& 0x04 != 0) then
    { u with fifoOn := on, holding := [], lost := u.lost ++ u.holding }
  else u

/-- `outb(port + reg, val)`; a byte to send is marked by `mark`. -/
def outb (mark : UInt8 → α) (u : Uart α) (reg : Nat) (val : UInt8) : Uart α :=
  match reg with
  | 0 => if u.dlab then { u with dll := val } else u.transmit (mark val)
  | 1 => if u.dlab then { u with dlm := val } else { u with ier := val }
  | 2 => u.control val
  | 3 => { u with lcr := val }
  | 4 => { u with mcr := val }
  | _ => u

/-- `inb(port + SERIAL_LINE_STATUS_REG)`, with nothing received. -/
def lsr (u : Uart α) : UInt8 :=
  if u.holding.isEmpty then (if u.shift.isNone then 0x60 else 0x20) else 0x00

/-- All bytes there are, the oldest first. -/
def flow (u : Uart α) : List α := u.wire ++ u.shift.toList ++ u.holding

end Uart

/-! ## 2. The code -/

/-- `hal_serial_init` -/
def halSerialInit {α : Type} (mark : UInt8 → α) (u : Uart α) : Uart α :=
  let baudDivisor : Nat := 115200 / 9600
  let u := u.outb mark 1 0x00
  let u := u.outb mark 3 0x80
  let u := u.outb mark 0 (UInt8.ofNat (baudDivisor &&& 0xFF))
  let u := u.outb mark 1 (UInt8.ofNat ((baudDivisor >>> 8) &&& 0xFF))
  let u := u.outb mark 3 (0x03 ||| 0x00 ||| 0x00)
  let u := u.outb mark 2 0xC7
  let u := u.outb mark 4 0x0B
  u.outb mark 1 0x01

/-- `serial_is_transmit_empty` -/
def serialIsTransmitEmpty {α : Type} (u : Uart α) : Bool := u.lsr &&& 0x20 != 0

/-- Someone in `hal_serial_write`: the bytes to come, whether the test for the first of them has been
passed, and the bytes written. -/
structure Writer where
  todo : List UInt8
  ready : Bool
  done : List UInt8

/-- The port and its users. -/
structure Port (n : Nat) where
  uart : Uart (Fin n × UInt8)
  writer : Fin n → Writer

variable {n : Nat}

/-- A round of the waiting loop, the write behind it, and the two moves of the transmitter. -/
inductive Op (n : Nat)
  | poll (i : Fin n)
  | write (i : Fin n)
  | load
  | emit

/-- One step of `serial_write_byte`, or of the transmitter. -/
def step (s : Port n) : Op n → Option (Port n)
  | .poll i =>
    if (s.writer i).todo ≠ [] ∧ (s.writer i).ready = false then
      some { s with
        writer := Function.update s.writer i { s.writer i with ready := serialIsTransmitEmpty s.uart } }
    else none
  | .write i =>
    match (s.writer i).todo with
    | [] => none
    | c :: rest =>
      if (s.writer i).ready then
        some ⟨s.uart.outb (fun c => (i, c)) 0 c,
          Function.update s.writer i ⟨rest, false, (s.writer i).done ++ [c]⟩⟩
      else none
  | .load =>
    match s.uart.shift, s.uart.holding with
    | none, a :: rest => some { s with uart := { s.uart with shift := some a, holding := rest } }
    | _, _ => none
  | .emit =>
    match s.uart.shift with
    | some a => some { s with uart := { s.uart with shift := none, wire := s.uart.wire ++ [a] } }
    | none => none

/-- Everybody is about to write. -/
def start (u : Uart (Fin n × UInt8)) (data : Fin n → List UInt8) : Port n :=
  ⟨u, fun i => ⟨data i, false, []⟩⟩

/-- The bytes of one writer. -/
def bytesOf (i : Fin n) (flow : List (Fin n × UInt8)) : List UInt8 :=
  (flow.filter (fun a => a.1 = i)).map Prod.snd

/-! ## 3. The transmitter -/

section Uart

variable {α : Type} {u : Uart α} {a : α}

theorem serialIsTransmitEmpty_iff : serialIsTransmitEmpty u = true ↔ u.holding = [] := by
  have hbits : ((0x60 : UInt8) &&& 0x20 != 0) = true ∧ ((0x20 : UInt8) &&& 0x20 != 0) = true := by decide
  rw [serialIsTransmitEmpty, Uart.lsr]
  cases u.holding with
  | nil =>
    cases u.shift with
    | none => exact iff_of_true hbits.1 rfl
    | some a => exact iff_of_true hbits.2 rfl
  | cons a rest => simp

theorem transmit_of_lt (h : u.holding.length < u.capacity) :
    u.transmit a = { u with holding := u.holding ++ [a] } := if_pos h

/-- A byte is held or it costs one. -/
theorem transmit_length (u : Uart α) (a : α) :
    (u.transmit a).lost.length + (u.transmit a).holding.length =
      u.lost.length + u.holding.length + 1 := by
  rw [Uart.transmit]
  split_ifs
  · simp only [List.length_append, List.length_cons, List.length_nil]
    omega
  · simp only [List.length_append, List.length_cons, List.length_nil]
    omega
  · simp only [List.length_append, List.length_cons, List.length_nil]

theorem transmit_le (u : Uart α) (a : α) (h : u.holding.length ≤ u.capacity) :
    (u.transmit a).holding.length ≤ (u.transmit a).capacity := by
  rw [Uart.transmit]
  split_ifs with hlt hon
  · simp only [List.length_append, List.length_cons, List.length_nil]
    exact hlt
  · exact h
  · simp [Uart.capacity, hon]

theorem transmit_regs (u : Uart α) (a : α) :
    (u.transmit a).lcr = u.lcr ∧ (u.transmit a).fifoOn = u.fifoOn := by
  rw [Uart.transmit]
  split_ifs <;> exact ⟨rfl, rfl⟩

/-- The queue on, and empty. -/
theorem control_on (u : Uart α) :
    u.control 0xC7 = { u with fifoOn := true, holding := [], lost := u.lost ++ u.holding } := by
  have hbits : ((0xC7 : UInt8) &&& 0x01 != 0) = true ∧ ((0xC7 : UInt8) &&& 0x04 != 0) = true := by decide
  simp only [Uart.control, hbits, Bool.and_true, Bool.or_true, if_true]

/-- `hal_serial_init` behind its first write, which goes to one of two registers. -/
theorem halSerialInit_eq (mark : UInt8 → α) (u v : Uart α) (hv : u.outb mark 1 0x00 = v) :
    halSerialInit mark u =
      ⟨0x01, 0x03, 0x0B, 12, 0, true, [], v.shift, v.wire, v.lost ++ v.holding⟩ := by
  have hclear : ((0x03 : UInt8) &&& 0x80 != 0) = false := by decide
  simp only [halSerialInit, hv]
  simp [Uart.outb, Uart.dlab, control_on, hclear]

/-- **After `hal_serial_init`**: bytes are sent, eight bits of them at 9600 baud, with a queue of 16.  What
was held is gone. -/
theorem halSerialInit_spec (mark : UInt8 → α) (u : Uart α) :
    (halSerialInit mark u).dlab = false ∧ (halSerialInit mark u).capacity = 16 ∧
    (halSerialInit mark u).lcr = 0x03 ∧ (halSerialInit mark u).dll = 12 ∧ (halSerialInit mark u).dlm = 0 ∧
    (halSerialInit mark u).holding = [] ∧ (halSerialInit mark u).lost = u.lost ++ u.holding := by
  have hfirst : (u.outb mark 1 0x00).lost = u.lost ∧ (u.outb mark 1 0x00).holding = u.holding := by
    rw [Uart.outb]
    split_ifs <;> exact ⟨rfl, rfl⟩
  have hclear : ((0x03 : UInt8) &&& 0x80 != 0) = false := by decide
  rw [halSerialInit_eq mark u _ rfl, hfirst.1, hfirst.2]
  exact ⟨hclear, rfl, rfl, rfl, rfl, rfl, rfl⟩

end Uart

/-! ## 4. One step -/

variable {s t : Port n} {u₀ : Uart (Fin n × UInt8)} {data : Fin n → List UInt8}

/-- The writers that have passed the test. -/
def readyWriters (s : Port n) : Finset (Fin n) := Finset.univ.filter (fun i => (s.writer i).ready = true)

/-- The transmitter sends, there is room for everybody who has passed the test, nothing has been lost, and
everything written is on its way. -/
structure Flows (u₀ : Uart (Fin n × UInt8)) (data : Fin n → List UInt8) (s : Port n) : Prop where
  dlab : s.uart.dlab = false
  capacity : s.uart.capacity = u₀.capacity
  room : s.uart.holding.length + (readyWriters s).card ≤ n
  lost : s.uart.lost = u₀.lost
  sent : ∀ i, bytesOf i s.uart.flow = bytesOf i u₀.flow ++ (s.writer i).done
  data : ∀ i, (s.writer i).done ++ (s.writer i).todo = data i

theorem bytesOf_append (i : Fin n) (xs ys : List (Fin n × UInt8)) :
    bytesOf i (xs ++ ys) = bytesOf i xs ++ bytesOf i ys := by
  rw [bytesOf, List.filter_append, List.map_append]
  rfl

theorem bytesOf_singleton (i j : Fin n) (c : UInt8) : bytesOf i [(j, c)] = if j = i then [c] else [] := by
  rw [bytesOf, List.filter_singleton]
  split_ifs <;> simp_all

theorem flows_start (hd : u₀.dlab = false) (hempty : u₀.holding = []) : Flows u₀ data (start u₀ data) where
  dlab := hd
  capacity := rfl
  room := by simp [start, hempty, readyWriters]
  lost := rfl
  sent i := (List.append_nil _).symm
  data i := rfl

/-- A writer that is not ready becomes ready, or not. -/
theorem readyWriters_card (s : Port n) {i : Fin n} {w : Writer} (uart : Uart (Fin n × UInt8)) :
    (readyWriters ⟨uart, Function.update s.writer i w⟩).card =
      ((readyWriters s).erase i).card + (if w.ready then 1 else 0) := by
  have hset : readyWriters ⟨uart, Function.update s.writer i w⟩ =
      if w.ready then insert i ((readyWriters s).erase i) else (readyWriters s).erase i := by
    ext j
    rcases eq_or_ne j i with rfl | hj
    · cases hw : w.ready <;> simp [readyWriters, hw]
    · cases hw : w.ready <;> simp [readyWriters, hj]
  rw [hset]
  split_ifs
  · rw [Finset.card_insert_of_notMem (Finset.notMem_erase i _)]
  · rfl

/-- A test changes neither what is to do nor what is done. -/
theorem Flows.poll (h : Flows u₀ data s) {i : Fin n} (hready : (s.writer i).ready = false) :
    Flows u₀ data { s with
      writer := Function.update s.writer i { s.writer i with ready := serialIsTransmitEmpty s.uart } } := by
  have hsame : ∀ j, (Function.update s.writer i { s.writer i with ready := serialIsTransmitEmpty s.uart } j).done =
      (s.writer j).done ∧ (Function.update s.writer i
        { s.writer i with ready := serialIsTransmitEmpty s.uart } j).todo = (s.writer j).todo := by
    intro j
    rcases eq_or_ne j i with rfl | hj
    · rw [Function.update_self]
      exact ⟨rfl, rfl⟩
    · rw [Function.update_of_ne hj]
      exact ⟨rfl, rfl⟩
  have hnot : i ∉ readyWriters s := by simp [readyWriters, hready]
  refine ⟨h.dlab, h.capacity, ?_, h.lost, fun j => ?_, fun j => ?_⟩
  · rw [readyWriters_card, Finset.erase_eq_of_notMem hnot]
    simp only
    cases hempty : serialIsTransmitEmpty s.uart with
    | false => simpa using h.room
    | true =>
      -- nobody but the others is ready, and nothing is held
      have hcard : (readyWriters s).card < n := by
        have := Finset.card_lt_univ_of_notMem hnot
        rwa [Fintype.card_fin] at this
      rw [serialIsTransmitEmpty_iff.mp hempty, List.length_nil, if_pos rfl]
      omega
  · simp only [(hsame j).1]
    exact h.sent j
  · simp only [(hsame j).1, (hsame j).2]
    exact h.data j

/-- A byte of a writer that has passed the test is held. -/
theorem Flows.write (hn : n ≤ u₀.capacity) (h : Flows u₀ data s) {i : Fin n} {c : UInt8} {rest : List UInt8}
    (htodo : (s.writer i).todo = c :: rest) (hready : (s.writer i).ready = true) :
    Flows u₀ data ⟨s.uart.outb (fun c => (i, c)) 0 c,
      Function.update s.writer i ⟨rest, false, (s.writer i).done ++ [c]⟩⟩ := by
  have hmem : i ∈ readyWriters s := by simp [readyWriters, hready]
  have hpos := Finset.card_pos.mpr ⟨i, hmem⟩
  have hroom := h.room
  have hlt : s.uart.holding.length < s.uart.capacity := by
    rw [h.capacity]
    omega
  have hout : s.uart.outb (fun c => (i, c)) 0 c = { s.uart with holding := s.uart.holding ++ [(i, c)] } := by
    simp only [Uart.outb, h.dlab]
    exact transmit_of_lt hlt
  rw [hout]
  refine ⟨h.dlab, h.capacity, ?_, h.lost, fun j => ?_, fun j => ?_⟩
  · rw [readyWriters_card, Finset.card_erase_of_mem hmem]
    simp only [List.length_append, List.length_cons, List.length_nil, Bool.false_eq_true, if_false]
    omega
  · have hflow : Uart.flow { s.uart with holding := s.uart.holding ++ [(i, c)] } = s.uart.flow ++ [(i, c)] := by
      simp [Uart.flow]
    simp only [hflow, bytesOf_append, h.sent j, bytesOf_singleton]
    rcases eq_or_ne j i with rfl | hj
    · rw [Function.update_self, if_pos rfl, List.append_assoc]
    · rw [Function.update_of_ne hj, if_neg hj.symm, List.append_nil]
  · rcases eq_or_ne j i with rfl | hj
    · simp only [Function.update_self, List.append_assoc, List.singleton_append, ← htodo]
      exact h.data j
    · simp only [Function.update_of_ne hj]
      exact h.data j

/-- The transmitter moves a byte on. -/
theorem Flows.move (h : Flows u₀ data s) {u : Uart (Fin n × UInt8)} (hlcr : u.lcr = s.uart.lcr)
    (hfifo : u.fifoOn = s.uart.fifoOn) (hlost : u.lost = s.uart.lost) (hflow : u.flow = s.uart.flow)
    (hlen : u.holding.length ≤ s.uart.holding.length) : Flows u₀ data { s with uart := u } := by
  refine ⟨?_, ?_, ?_, hlost.trans h.lost, fun j => ?_, h.data⟩
  · simp only [Uart.dlab, hlcr]
    exact h.dlab
  · rw [← h.capacity]
    simp only [Uart.capacity, hfifo]
  · exact (Nat.add_le_add_right hlen _).trans h.room
  · rw [hflow]
    exact h.sent j

/-- **One step**, as long as there are no more writers than there is room. -/
theorem flows_step (hn : n ≤ u₀.capacity) {o : Op n} (h : Flows u₀ data s) (hstep : step s o = some t) :
    Flows u₀ data t := by
  cases o with
  | poll i =>
    obtain ⟨⟨-, hready⟩, ht⟩ := Option.ite_none_right_eq_some.mp hstep
    obtain rfl := Option.some.inj ht
    exact h.poll hready
  | write i =>
    cases htodo : (s.writer i).todo with
    | nil => simp [step, htodo] at hstep
    | cons c rest =>
      simp only [step, htodo, Option.ite_none_right_eq_some, Option.some.injEq] at hstep
      obtain ⟨hready, rfl⟩ := hstep
      exact h.write hn htodo hready
  | load =>
    simp only [step] at hstep
    split at hstep
    · next a rest hshift hholding =>
      obtain rfl := Option.some.inj hstep
      refine h.move rfl rfl rfl ?_ ?_
      · simp [Uart.flow, hshift, hholding]
      · simp [hholding]
    · cases hstep
  | emit =>
    cases hshift : s.uart.shift with
    | none => simp [step, hshift] at hstep
    | some a =>
      simp only [step, hshift, Option.some.injEq] at hstep
      subst hstep
      exact h.move rfl rfl rfl (by simp [Uart.flow, hshift]) le_rfl

/-! ## 5. Runs -/

/-- Any order of steps. -/
abbrev Reaches (s t : Port n) : Prop := Reach step (fun _ _ => True) s t

theorem flows_reach (hn : n ≤ u₀.capacity) (hd : u₀.dlab = false) (hempty : u₀.holding = [])
    (h : Reaches (start u₀ data) s) : Flows u₀ data s :=
  h.inv (flows_start hd hempty) (fun _ _ _ hs _ hst => flows_step hn hs hst)

/-- **In order.**  After `hal_serial_init`, with at most 16 writers and in every interleaving: what has
gone out and what is on its way is, for each writer, what it has written, in its order. -/
theorem serial_in_order (hn : n ≤ 16) (u : Uart (Fin n × UInt8)) (mark : UInt8 → Fin n × UInt8)
    (data : Fin n → List UInt8) (h : Reaches (start (halSerialInit mark u) data) s) (i : Fin n) :
    bytesOf i s.uart.flow = bytesOf i (halSerialInit mark u).flow ++ (s.writer i).done ∧
      (s.writer i).done ++ (s.writer i).todo = data i := by
  obtain ⟨hd, hcap, -, -, -, hempty, -⟩ := halSerialInit_spec mark u
  have hflows := flows_reach (by omega) hd hempty h
  exact ⟨hflows.sent i, hflows.data i⟩

/-- A transmitter after reset. -/
def resetUart (n : Nat) : Uart (Fin n × UInt8) := ⟨0, 3, 0, 1, 0, false, [], none, [], []⟩

/-- Two writers of a byte each: the first has written, the second waits. -/
theorem serial_in_order_two : ∃ s : Port 2,
    Reaches (start (halSerialInit (fun c => (0, c)) (resetUart 2)) (fun _ => [0x41])) s ∧
      bytesOf 0 s.uart.flow = [0x41] ∧ (s.writer 1).todo = [0x41] := by
  have h1 : Reaches (start (halSerialInit (fun c => (0, c)) (resetUart 2)) (fun _ => [0x41])) _ :=
    .tail .refl (o := .poll 0) trivial rfl
  have h2 : Reaches (start (halSerialInit (fun c => (0, c)) (resetUart 2)) (fun _ => [0x41])) _ :=
    .tail h1 (o := .write 0) trivial rfl
  obtain ⟨hsent, -⟩ := serial_in_order (by decide) (resetUart 2) (fun c => (0, c)) (fun _ => [0x41]) h2 0
  exact ⟨_, h2, hsent, rfl⟩

/-- Everybody makes the test before anybody writes. -/
theorem run_polls : ∀ {is : List (Fin n)} {s : Port n}, is.Nodup → s.uart.holding = [] →
    (∀ i ∈ is, (s.writer i).todo ≠ [] ∧ (s.writer i).ready = false) →
    ∃ t, run step s (is.map .poll) = some t ∧ t.uart = s.uart ∧
      (∀ i ∈ is, (t.writer i).todo = (s.writer i).todo ∧ (t.writer i).ready = true) ∧
      ∀ i ∉ is, t.writer i = s.writer i
  | [], s, _, _, _ => ⟨s, rfl, rfl, fun i hi => absurd hi List.not_mem_nil, fun _ _ => rfl⟩
  | i :: is, s, hnodup, hempty, hfree => by
    obtain ⟨hi, hnodup'⟩ := List.nodup_cons.mp hnodup
    have hstep : step s (.poll i) = some { s with
        writer := Function.update s.writer i { s.writer i with ready := true } } := by
      rw [step, if_pos (hfree i List.mem_cons_self), serialIsTransmitEmpty_iff.mpr hempty]
    obtain ⟨t, hrun, huart, hin, hout⟩ := run_polls (s := { s with
        writer := Function.update s.writer i { s.writer i with ready := true } }) hnodup' hempty
      (fun j hj => by
        simp only [Function.update_of_ne (fun h : j = i => hi (h ▸ hj))]
        exact hfree j (List.mem_cons_of_mem i hj))
    refine ⟨t, run_cons_eq_some.mpr ⟨_, hstep, hrun⟩, huart, fun j hj => ?_, fun j hj => ?_⟩
    · rcases List.mem_cons.mp hj with rfl | hj'
      · rw [hout j hi]
        simp
      · have hne : j ≠ i := fun h => hi (h ▸ hj')
        have := hin j hj'
        simpa only [Function.update_of_ne hne] using this
    · rw [List.mem_cons, not_or] at hj
      rw [hout j hj.2]
      simp only [Function.update_of_ne hj.1]

/-- Then everybody writes: what is not held is lost. -/
theorem run_writes : ∀ {is : List (Fin n)} {s : Port n}, is.Nodup → s.uart.dlab = false →
    s.uart.holding.length ≤ s.uart.capacity →
    (∀ i ∈ is, (s.writer i).todo ≠ [] ∧ (s.writer i).ready = true) →
    ∃ t, run step s (is.map .write) = some t ∧ t.uart.capacity = s.uart.capacity ∧
      t.uart.holding.length ≤ t.uart.capacity ∧
      t.uart.lost.length + t.uart.holding.length =
        s.uart.lost.length + s.uart.holding.length + is.length
  | [], s, _, _, hcap, _ => ⟨s, rfl, rfl, hcap, rfl⟩
  | i :: is, s, hnodup, hd, hcap, hready => by
    obtain ⟨hi, hnodup'⟩ := List.nodup_cons.mp hnodup
    obtain ⟨htodo, hri⟩ := hready i List.mem_cons_self
    obtain ⟨c, rest, hc⟩ := List.exists_cons_of_ne_nil htodo
    have hout : s.uart.outb (fun c => (i, c)) 0 c = s.uart.transmit (i, c) := by
      simp only [Uart.outb, hd]
      rfl
    have hstep : step s (.write i) = some ⟨s.uart.transmit (i, c),
        Function.update s.writer i ⟨rest, false, (s.writer i).done ++ [c]⟩⟩ := by
      simp only [step, hc, hri, if_true, hout]
    obtain ⟨hlcr, hfifo⟩ := transmit_regs s.uart (i, c)
    have hsame : (s.uart.transmit (i, c)).capacity = s.uart.capacity := by
      rw [Uart.capacity, hfifo, Uart.capacity]
    have hlen := transmit_length s.uart (i, c)
    obtain ⟨t, hrun, hcap', hle, htotal⟩ := run_writes (s := ⟨s.uart.transmit (i, c),
        Function.update s.writer i ⟨rest, false, (s.writer i).done ++ [c]⟩⟩) hnodup'
      (by rw [Uart.dlab, hlcr]; exact hd) (transmit_le s.uart (i, c) hcap) (fun j hj => by
        simp only [Function.update_of_ne (fun h : j = i => hi (h ▸ hj))]
        exact hready j (List.mem_cons_of_mem i hj))
    refine ⟨t, run_cons_eq_some.mpr ⟨_, hstep, hrun⟩, hcap'.trans hsame, hle, ?_⟩
    simp only at htotal
    rw [htotal, hlen, List.length_cons]
    omega

/-- **Nothing is lost in any interleaving if and only if there are at most 16 writers.** -/
theorem serial_lossless_iff (u : Uart (Fin n × UInt8)) (mark : UInt8 → Fin n × UInt8)
    (data : Fin n → List UInt8) (hdata : ∀ i, data i ≠ []) :
    (∀ s, Reaches (start (halSerialInit mark u) data) s → s.uart.lost = (halSerialInit mark u).lost) ↔
      n ≤ 16 := by
  obtain ⟨hd, hcap, -, -, -, hempty, -⟩ := halSerialInit_spec mark u
  constructor
  · intro hall
    by_contra hmany
    obtain ⟨s, hpolls, huart, hready, -⟩ := run_polls (s := start (halSerialInit mark u) data)
      (List.nodup_finRange n) hempty (fun i _ => ⟨hdata i, rfl⟩)
    have huart' : s.uart = halSerialInit mark u := huart
    obtain ⟨t, hwrites, hcap', hle, htotal⟩ := run_writes (s := s) (List.nodup_finRange n)
      (by rw [huart']; exact hd) (by rw [huart', hempty]; exact Nat.zero_le _)
      (fun i hi => by rw [(hready i hi).1]; exact ⟨hdata i, (hready i hi).2⟩)
    have hreach : Reaches (start (halSerialInit mark u) data) t :=
      (Reach.of_run (fun _ _ => trivial) .refl hpolls).of_run (fun _ _ => trivial) hwrites
    rw [hall t hreach, huart', hempty, List.length_nil, List.length_finRange] at htotal
    rw [huart', hcap] at hcap'
    omega
  · intro hn s hs
    exact (flows_reach (by omega) hd hempty hs).lost

/-- Twenty writers are too many. -/
theorem serial_lossless_iff_twenty :
    ¬ ∀ s, Reaches (start (halSerialInit (fun c => (0, c)) (resetUart 20)) (fun _ => [0x41])) s →
      s.uart.lost = (halSerialInit (fun c => (0, c)) (resetUart 20)).lost := by
  rw [serial_lossless_iff (resetUart 20) (fun c => (0, c)) (fun _ => [0x41]) (by simp)]
  decide

end JarvOs.Drivers.Serial
