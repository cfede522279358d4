/-
# Uart16550 — a serial port with its FIFOs.

What a program sees of a 16550: eight registers, two of which give way to the divisor while the access bit of the
line control register is set; a transmitter that holds 16 bytes with the FIFOs on, and one without; a loopback, in
which what is sent is received. `shift` takes a byte out of the transmitter. A byte that finds no room is lost.

Outside of loopback the bytes on the line and those in the transmitter, one behind the other, only grow by what is
written to the data register (`Uart.Talks.sent_shift`, `Uart.Talks.sent_write`).
-/
import Mathlib.Data.List.Basic
import Mathlib.Logic.Function.Iterate

namespace Uart16550

/-- Interrupt enable, line control, modem control and FIFO control, the divisor, the bytes to transmit and those
received, the bytes on the line since the start, and how many were lost -/
structure Uart where
  ier : UInt8
  lcr : UInt8
  mcr : UInt8
  fcr : UInt8
  divisorLow : UInt8
  divisorHigh : UInt8
  transmit : List UInt8
  receive : List UInt8
  line : List UInt8
  lost : Nat
  deriving DecidableEq, Repr

namespace Uart

/-- The divisor is in the place of the data and interrupt enable registers. -/
def divisor? (u : Uart) : Bool := u.lcr &&& 0x80 != 0

def loopback? (u : Uart) : Bool := u.mcr &&& 0x10 != 0

/-- The bytes the transmitter has room for -/
def depth (u : Uart) : Nat := if u.fcr &&& 1 ≠ 0 then 16 else 1

/-- A byte leaves the transmitter. -/
def shift (u : Uart) : Uart :=
  match u.transmit with
  | [] => u
  | b :: rest =>
    if u.loopback? then { u with transmit := rest, receive := u.receive ++ [b] }
    else { u with transmit := rest, line := u.line ++ [b] }

/-- `n` bytes leave it -/
def shifts (n : Nat) (u : Uart) : Uart := shift^[n] u

/-- A write to the data register -/
def put (b : UInt8) (u : Uart) : Uart :=
  if u.transmit.length < u.depth then { u with transmit := u.transmit ++ [b] } else { u with lost := u.lost + 1 }

/-- A write to the FIFO control register: two of its bits clear the FIFOs and are not kept, and so does turning them
on or off. -/
def control (v : UInt8) (u : Uart) : Uart :=
  { u with
    fcr := v &&& 0xC9
    receive := if v &&& 2 ≠ 0 ∨ (v ^^^ u.fcr) &&& 1 ≠ 0 then [] else u.receive
    transmit := if v &&& 4 ≠ 0 ∨ (v ^^^ u.fcr) &&& 1 ≠ 0 then [] else u.transmit }

/-- A write to the register at this offset -/
def write (reg : UInt16) (v : UInt8) (u : Uart) : Uart :=
  if reg = 0 then if u.divisor? then { u with divisorLow := v } else u.put v
  else if reg = 1 then if u.divisor? then { u with divisorHigh := v } else { u with ier := v }
  else if reg = 2 then u.control v
  else if reg = 3 then { u with lcr := v }
  else if reg = 4 then { u with mcr := v }
  else u

/-- The line status: a byte was received, the transmitter has nothing to do -/
def status (u : Uart) : UInt8 := (if u.receive = [] then 0 else 1) ||| (if u.transmit = [] then 0x20 else 0)

/-- A read of the register at this offset; those that are not modelled read as 0. -/
def read (reg : UInt16) (u : Uart) : UInt8 × Uart :=
  if reg = 0 then
    if u.divisor? then (u.divisorLow, u)
    else (u.receive.headD 0, { u with receive := u.receive.tail })
  else if reg = 1 then (if u.divisor? then u.divisorHigh else u.ier, u)
  else if reg = 3 then (u.lcr, u)
  else if reg = 4 then (u.mcr, u)
  else if reg = 5 then (u.status, u)
  else (0, u)

theorem write_format (v : UInt8) (u : Uart) : u.write 3 v = { u with lcr := v } := by
  simp [write]

theorem write_modem (v : UInt8) (u : Uart) : u.write 4 v = { u with mcr := v } := by
  simp [write]

theorem write_control (v : UInt8) (u : Uart) : u.write 2 v = u.control v := by
  simp [write]

theorem write_enable (v : UInt8) {u : Uart} (h : u.divisor? = false) : u.write 1 v = { u with ier := v } := by
  simp [write, h]

theorem write_divisorHigh (v : UInt8) {u : Uart} (h : u.divisor? = true) :
    u.write 1 v = { u with divisorHigh := v } := by
  simp [write, h]

theorem write_divisorLow (v : UInt8) {u : Uart} (h : u.divisor? = true) : u.write 0 v = { u with divisorLow := v } := by
  simp [write, h]

/-- Everything that was handed to the transmitter and not lost, oldest first, apart from what went round in loopback -/
def sent (u : Uart) : List UInt8 := u.line ++ u.transmit

/-- The transmitter is idle if and only if its bit is set. -/
theorem status_and (u : Uart) : u.status &&& 0x20 ≠ 0 ↔ u.transmit = [] := by
  unfold status
  by_cases hr : u.receive = []
  · by_cases ht : u.transmit = []
    · simp [hr, ht]
    · simp [hr, ht]
  · by_cases ht : u.transmit = []
    · simp only [hr, ht, if_true, if_false, iff_true]
      decide
    · simp only [hr, ht, if_false, iff_false]
      decide

/-! ## What a byte time does -/

/-- The registers that only a write changes -/
structure SameSetup (u v : Uart) : Prop where
  ier : v.ier = u.ier
  lcr : v.lcr = u.lcr
  mcr : v.mcr = u.mcr
  fcr : v.fcr = u.fcr
  low : v.divisorLow = u.divisorLow
  high : v.divisorHigh = u.divisorHigh

theorem SameSetup.refl (u : Uart) : SameSetup u u := ⟨rfl, rfl, rfl, rfl, rfl, rfl⟩

theorem SameSetup.trans {u v w : Uart} (h : SameSetup u v) (h' : SameSetup v w) : SameSetup u w :=
  ⟨h'.ier.trans h.ier, h'.lcr.trans h.lcr, h'.mcr.trans h.mcr, h'.fcr.trans h.fcr, h'.low.trans h.low,
    h'.high.trans h.high⟩

theorem SameSetup.depth {u v : Uart} (h : SameSetup u v) : v.depth = u.depth := by
  rw [Uart.depth, Uart.depth, h.fcr]

theorem sameSetup_shift (u : Uart) : SameSetup u u.shift := by
  unfold shift
  split
  · exact SameSetup.refl u
  · split
    · exact ⟨rfl, rfl, rfl, rfl, rfl, rfl⟩
    · exact ⟨rfl, rfl, rfl, rfl, rfl, rfl⟩

theorem lost_shift (u : Uart) : u.shift.lost = u.lost := by
  unfold shift
  split
  · rfl
  · split <;> rfl

theorem transmit_shift (u : Uart) : u.shift.transmit = u.transmit.tail := by
  unfold shift
  split
  · rename_i h
    rw [h, List.tail_nil]
  · rename_i b rest h
    rw [h, List.tail_cons]
    split <;> rfl

/-- The port is set up to send: the data register is in its place, and there is no loopback. -/
structure Talks (u : Uart) : Prop where
  data : u.divisor? = false
  out : u.loopback? = false

theorem Talks.of_sameSetup {u v : Uart} (h : u.Talks) (hs : SameSetup u v) : v.Talks := by
  refine ⟨?_, ?_⟩
  · rw [divisor?, hs.lcr]
    exact h.data
  · rw [loopback?, hs.mcr]
    exact h.out

theorem Talks.shift {u : Uart} (h : u.Talks) : u.shift.Talks := h.of_sameSetup (sameSetup_shift u)

/-- **A byte time loses nothing and changes no order.** -/
theorem Talks.sent_shift {u : Uart} (h : u.Talks) : u.shift.sent = u.sent := by
  unfold Uart.shift
  split
  · rfl
  · rename_i b rest heq
    rw [h.out, if_neg Bool.false_ne_true, sent, sent, heq, List.append_assoc, List.singleton_append]

/-- **A byte that finds room is behind the others.** -/
theorem Talks.sent_write {u : Uart} (h : u.Talks) {b : UInt8} (hroom : u.transmit.length < u.depth) :
    (u.write 0 b).sent = u.sent ++ [b] ∧ (u.write 0 b).lost = u.lost ∧ SameSetup u (u.write 0 b) ∧
      (u.write 0 b).transmit = u.transmit ++ [b] := by
  have hput : u.write 0 b = { u with transmit := u.transmit ++ [b] } := by
    rw [write, if_pos rfl, h.data, if_neg Bool.false_ne_true, put, if_pos hroom]
  rw [hput]
  exact ⟨(List.append_assoc _ _ _).symm, rfl, ⟨rfl, rfl, rfl, rfl, rfl, rfl⟩, rfl⟩

/-! ## Any number of byte times -/

theorem shifts_succ (n : Nat) (u : Uart) : shifts (n + 1) u = (shifts n u).shift := Function.iterate_succ_apply' _ n u

theorem sameSetup_shifts (n : Nat) (u : Uart) : SameSetup u (shifts n u) := by
  induction n with
  | zero => exact SameSetup.refl u
  | succ n ih =>
    rw [shifts_succ]
    exact ih.trans (sameSetup_shift _)

theorem lost_shifts (n : Nat) (u : Uart) : (shifts n u).lost = u.lost := by
  induction n with
  | zero => rfl
  | succ n ih => rw [shifts_succ, lost_shift, ih]

theorem transmit_shifts (n : Nat) (u : Uart) : (shifts n u).transmit = u.transmit.drop n := by
  induction n with
  | zero => rfl
  | succ n ih => rw [shifts_succ, transmit_shift, ih, List.tail_drop]

theorem Talks.sent_shifts {u : Uart} (h : u.Talks) (n : Nat) : (shifts n u).sent = u.sent := by
  induction n with
  | zero => rfl
  | succ n ih => rw [shifts_succ, (h.of_sameSetup (sameSetup_shifts n u)).sent_shift, ih]

end Uart

end Uart16550
