/-
# MinOS.Keyboard.Controller — `keyboard_init` of `kernel/keyboard.c`.

The controller is the stream of bytes that the reads of its two ports return, one after the other; nothing
is assumed about it. A wait polls the status port at most 100000 times. The loop that empties the output buffer
has no such bound: it is given a number of rounds, and running out of them is `none`, for every number of
rounds if the loop does not end.

The reads of that loop alternate between status and data. It ends if and only if one of the status bytes has
the output buffer empty, and everything before and behind it always returns.
-/
import Mathlib.Data.List.Basic

namespace MinOS.Keyboard

/-! ## The ports -/

/-- The byte returned by the read with that number, of whichever port -/
def Device : Type := Nat → UInt8

/-- How many bytes were read, and what was written where, the latest first -/
structure Ports where
  reads : Nat
  writes : List (UInt16 × UInt8)
  deriving DecidableEq, Repr

/-- `KBD_DATA` -/
def kbdData : UInt16 := 0x60
/-- `KBD_COMMAND` -/
def kbdCommand : UInt16 := 0x64
/-- `KBD_STATUS_OBF` -/
def statusObf : UInt8 := 0x01
/-- `KBD_STATUS_IBF` -/
def statusIbf : UInt8 := 0x02

/-- `inb` of either port -/
def inb (device : Device) (p : Ports) : UInt8 × Ports := (device p.reads, { p with reads := p.reads + 1 })

/-- `outb` -/
def outb (port : UInt16) (value : UInt8) (p : Ports) : Ports := { p with writes := (port, value) :: p.writes }

/-- `while (busy(inb(KBD_STATUS)) && --timeout)`, and then `timeout != 0` -/
def waitWhile (busy : UInt8 → Bool) (device : Device) : Nat → Ports → Bool × Ports
  | 0, p => (false, p)
  | timeout + 1, p =>
    let (status, p) := inb device p
    if busy status then waitWhile busy device timeout p else (true, p)

/-- `wait_input_clear` -/
def waitInputClear (device : Device) (p : Ports) : Bool × Ports :=
  waitWhile (fun status => status &&& statusIbf != 0) device 100000 p

/-- `wait_output_full` -/
def waitOutputFull (device : Device) (p : Ports) : Bool × Ports :=
  waitWhile (fun status => status &&& statusObf == 0) device 100000 p

/-- `controller_command` and `keyboard_command` differ in the port. -/
def commandTo (port : UInt16) (command : UInt8) (device : Device) (p : Ports) : Int × Ports :=
  let (clear, p) := waitInputClear device p
  if clear then (0, outb port command p) else (-1, p)

/-- `controller_command` -/
def controllerCommand : UInt8 → Device → Ports → Int × Ports := commandTo kbdCommand

/-- `keyboard_command` -/
def keyboardCommand : UInt8 → Device → Ports → Int × Ports := commandTo kbdData

/-- `while (inb(KBD_STATUS) & KBD_STATUS_OBF) (void)inb(KBD_DATA)` with at most `rounds` rounds -/
def drain (device : Device) : Nat → Ports → Option Ports
  | 0, _ => none
  | rounds + 1, p =>
    let (status, p) := inb device p
    if status &&& statusObf ≠ 0 then
      let (_, p) := inb device p
      drain device rounds p
    else some p

/-! ## `keyboard_init` -/

/-- `!wait_output_full() || inb(KBD_DATA) != expected` is false: the device answered as expected. -/
def answers (expected : UInt8) (device : Device) (p : Ports) : Bool × Ports :=
  let (full, p) := waitOutputFull device p
  if full then
    let (value, p) := inb device p
    (value == expected, p)
  else (false, p)

/-- From the keyboard reset on -/
def resetKeyboard (device : Device) (p : Ports) : Int × Ports :=
  let (r, p) := keyboardCommand 0xFF device p
  if r ≠ 0 then (-1, p)
  else
    let (ok, p) := answers 0xFA device p
    if !ok then (-1, p)
    else
      let (ok, p) := answers 0xAA device p
      if !ok then (-1, p)
      else
        let (r, p) := controllerCommand 0xAE device p
        if r ≠ 0 then (-1, p) else (0, p)

/-- From the command that reads the configuration on -/
def configure (device : Device) (p : Ports) : Int × Ports :=
  let (r, p) := controllerCommand 0x20 device p
  if r ≠ 0 then (-1, p)
  else
    let (full, p) := waitOutputFull device p
    if !full then (-1, p)
    else
      let (config, p) := inb device p
      let (r, p) := controllerCommand 0x60 device p
      if r ≠ 0 then (-1, p)
      else
        let (clear, p) := waitInputClear device p
        if !clear then (-1, p) else resetKeyboard device (outb kbdData (config ||| 0x01 ||| 0x40) p)

/-- From the self test on -/
def selfTest (device : Device) (p : Ports) : Int × Ports :=
  let (r, p) := controllerCommand 0xAA device p
  if r ≠ 0 then (-1, p)
  else
    let (ok, p) := answers 0x55 device p
    if !ok then (-1, p) else configure device p

/-- `keyboard_init`, with at most `rounds` rounds of the loop that empties the output buffer -/
def keyboardInit (device : Device) (rounds : Nat) (p : Ports) : Option (Int × Ports) :=
  let (r, p) := controllerCommand 0xAD device p
  if r ≠ 0 then some (-1, p)
  else
    let (r, p) := controllerCommand 0xA7 device p
    if r ≠ 0 then some (-1, p)
    else (drain device rounds p).map (selfTest device)

/-! ## Waits -/

variable {device : Device} {p : Ports}

/-- A wait ends at the first byte that is not busy, or after its last one. -/
theorem waitWhile_cases (busy : UInt8 → Bool) (device : Device) :
    ∀ (timeout : Nat) (p : Ports),
      (∃ n, p.reads ≤ n ∧ n < p.reads + timeout ∧ busy (device n) = false ∧
        (∀ i, p.reads ≤ i → i < n → busy (device i) = true) ∧
        waitWhile busy device timeout p = (true, { p with reads := n + 1 })) ∨
      (∀ n, p.reads ≤ n → n < p.reads + timeout → busy (device n) = true) ∧
        ∃ q, waitWhile busy device timeout p = (false, q) := by
  intro timeout
  induction timeout with
  | zero =>
    intro p
    exact Or.inr ⟨fun n hn hlt => by omega, p, rfl⟩
  | succ timeout ih =>
    intro p
    by_cases hbusy : busy (device p.reads) = true
    · have hstep : waitWhile busy device (timeout + 1) p =
          waitWhile busy device timeout { p with reads := p.reads + 1 } := if_pos hbusy
      rw [hstep]
      have hfrom : ∀ i, p.reads ≤ i → i = p.reads ∨ p.reads + 1 ≤ i := by
        intro i hi
        omega
      rcases ih { p with reads := p.reads + 1 } with ⟨n, hn, hlt, hfree, hbefore, heq⟩ | ⟨hall, hq⟩
      · refine Or.inl ⟨n, Nat.le_of_succ_le hn, by simp only at hlt; omega, hfree, fun i hi hin => ?_, heq⟩
        rcases hfrom i hi with rfl | hi
        · exact hbusy
        · exact hbefore i hi hin
      · refine Or.inr ⟨fun n hn hlt => ?_, hq⟩
        rcases hfrom n hn with rfl | hn
        · exact hbusy
        · exact hall n hn (by simp only; omega)
    · refine Or.inl ⟨p.reads, Nat.le_refl _, by omega, by simpa using hbusy, fun i hi hlt => by omega, ?_⟩
      exact if_neg hbusy

/-- The read `n` is the first one from `start` on with the input buffer clear, and it is among the 100000 that
a wait makes. -/
structure FirstClear (device : Device) (start n : Nat) : Prop where
  from_start : start ≤ n
  in_time : n < start + 100000
  clear : device n &&& statusIbf = 0
  before : ∀ i, start ≤ i → i < n → device i &&& statusIbf ≠ 0

theorem FirstClear.unique {start m n : Nat} (hm : FirstClear device start m) (hn : FirstClear device start n) :
    m = n := by
  rcases Nat.lt_trichotomy m n with hlt | heq | hlt
  · exact absurd hm.clear (hn.before m hm.from_start hlt)
  · exact heq
  · exact absurd hn.clear (hm.before n hn.from_start hlt)

/-- A command is sent behind the first read with the input buffer clear; without one it is refused. -/
theorem commandTo_cases (port : UInt16) (command : UInt8) (device : Device) (p : Ports) :
    (∃ n, FirstClear device p.reads n ∧
      commandTo port command device p = (0, ⟨n + 1, (port, command) :: p.writes⟩)) ∨
    (∀ n, ¬ FirstClear device p.reads n) ∧ ∃ q, commandTo port command device p = (-1, q) := by
  rcases waitWhile_cases (fun status => status &&& statusIbf != 0) device 100000 p with
    ⟨n, hn, hlt, hfree, hbefore, heq⟩ | ⟨hall, q, heq⟩
  · refine Or.inl ⟨n, ⟨hn, hlt, by simpa using hfree, fun i hi hin => by simpa using hbefore i hi hin⟩, ?_⟩
    rw [commandTo, waitInputClear, heq]
    rfl
  · refine Or.inr ⟨fun n hn => ?_, q, ?_⟩
    · have := hall n hn.from_start hn.in_time
      simp [hn.clear] at this
    · rw [commandTo, waitInputClear, heq]
      rfl

/-! ## The loop that empties the output buffer -/

theorem drain_some {i : Nat} :
    ∀ {p : Ports}, device (p.reads + 2 * i) &&& statusObf = 0 → ∃ q, drain device (i + 1) p = some q := by
  induction i with
  | zero =>
    intro p hempty
    exact ⟨_, if_neg (not_not_intro (by simpa using hempty))⟩
  | succ i ih =>
    intro p hempty
    by_cases hfull : device p.reads &&& statusObf ≠ 0
    · obtain ⟨q, hq⟩ := ih (p := { p with reads := p.reads + 1 + 1 }) (by
        have hindex : p.reads + 2 * (i + 1) = p.reads + 1 + 1 + 2 * i := by omega
        rw [hindex] at hempty
        exact hempty)
      exact ⟨q, (if_pos hfull).trans hq⟩
    · exact ⟨_, if_neg hfull⟩

theorem drain_none (h : ∀ i, device (p.reads + 2 * i) &&& statusObf ≠ 0) (rounds : Nat) :
    drain device rounds p = none := by
  induction rounds generalizing p with
  | zero => rfl
  | succ rounds ih =>
    have hrest : drain device rounds { p with reads := p.reads + 1 + 1 } = none := by
      apply ih
      intro i
      have hindex : p.reads + 1 + 1 + 2 * i = p.reads + 2 * (i + 1) := by omega
      show device (p.reads + 1 + 1 + 2 * i) &&& statusObf ≠ 0
      rw [hindex]
      exact h (i + 1)
    exact (if_pos (h 0)).trans hrest

/-! ## The result -/

theorem resetKeyboard_value (device : Device) (p : Ports) :
    (resetKeyboard device p).1 = 0 ∨ (resetKeyboard device p).1 = -1 := by
  simp only [resetKeyboard]
  split_ifs <;> simp

theorem configure_value (device : Device) (p : Ports) :
    (configure device p).1 = 0 ∨ (configure device p).1 = -1 := by
  simp only [configure]
  split_ifs
  · simp
  · simp
  · simp
  · simp
  · exact resetKeyboard_value _ _

theorem selfTest_value (device : Device) (p : Ports) :
    (selfTest device p).1 = 0 ∨ (selfTest device p).1 = -1 := by
  simp only [selfTest]
  split_ifs
  · simp
  · simp
  · exact configure_value _ _

/-- `keyboard_init` returns 0 or -1 after some number of rounds. -/
def Returns (device : Device) (p : Ports) : Prop :=
  ∃ rounds r q, keyboardInit device rounds p = some (r, q) ∧ (r = 0 ∨ r = -1)

/-- **When `keyboard_init` returns.** If the two commands that disable the ports are sent, behind the reads `a`
and `b`, one of the status bytes read from then on, every second read, must have the output buffer empty; and
that is enough. -/
theorem keyboard_init_returns_iff (device : Device) (p : Ports) :
    Returns device p ↔
      ∀ a b, FirstClear device p.reads a → FirstClear device (a + 1) b →
        ∃ i, device (b + 1 + 2 * i) &&& statusObf = 0 := by
  rcases commandTo_cases kbdCommand 0xAD device p with ⟨a, ha, hfirst⟩ | ⟨hnone, q, hfirst⟩
  · rcases commandTo_cases kbdCommand 0xA7 device ⟨a + 1, (kbdCommand, 0xAD) :: p.writes⟩ with
      ⟨b, hb, hsecond⟩ | ⟨hnone, q, hsecond⟩
    · have hinit : ∀ rounds, keyboardInit device rounds p =
          (drain device rounds ⟨b + 1, (kbdCommand, 0xA7) :: (kbdCommand, 0xAD) :: p.writes⟩).map
            (selfTest device) := by
        intro rounds
        simp [keyboardInit, controllerCommand, hfirst, hsecond]
      constructor
      · rintro ⟨rounds, r, q, hrun, -⟩ a' b' ha' hb'
        obtain rfl := ha.unique ha'
        obtain rfl := hb.unique hb'
        -- Without an empty buffer the loop would use up any number of rounds.
        by_contra hfull
        have hnone := drain_none (p := ⟨b + 1, (kbdCommand, 0xA7) :: (kbdCommand, 0xAD) :: p.writes⟩)
          (fun i hi => hfull ⟨i, hi⟩) rounds
        rw [hinit, hnone] at hrun
        cases hrun
      · intro h
        obtain ⟨i, hi⟩ := h a b ha hb
        obtain ⟨q, hq⟩ :=
          drain_some (p := ⟨b + 1, (kbdCommand, 0xA7) :: (kbdCommand, 0xAD) :: p.writes⟩) hi
        exact ⟨i + 1, (selfTest device q).1, (selfTest device q).2, by rw [hinit, hq]; rfl,
          selfTest_value device q⟩
    · refine ⟨fun _ a' b' ha' hb' => ?_, fun _ => ⟨0, -1, q, ?_, Or.inr rfl⟩⟩
      · obtain rfl := ha.unique ha'
        exact absurd hb' (hnone b')
      · simp [keyboardInit, controllerCommand, hfirst, hsecond]
  · refine ⟨fun _ a b ha _ => absurd ha (hnone a), fun _ => ⟨0, -1, q, ?_, Or.inr rfl⟩⟩
    simp [keyboardInit, controllerCommand, hfirst]

/-- A controller whose status byte always says that the output buffer is full: no number of rounds is enough. -/
theorem keyboard_init_hangs : ¬ Returns (fun _ => statusObf) ⟨0, []⟩ := by
  rintro ⟨rounds, r, q, hrun, -⟩
  have hsent : ∀ command p, commandTo kbdCommand command (fun _ => statusObf) p =
      (0, ⟨p.reads + 1, (kbdCommand, command) :: p.writes⟩) := by
    intro command p
    have hclear : FirstClear (fun _ => statusObf) p.reads p.reads :=
      ⟨Nat.le_refl _, by omega, rfl, fun i hi hlt => by omega⟩
    rcases commandTo_cases kbdCommand command (fun _ => statusObf) p with ⟨n, hn, heq⟩ | ⟨hnone, -⟩
    · rw [heq, hn.unique hclear]
    · exact absurd hclear (hnone _)
  have hnone : drain (fun _ => statusObf) rounds ⟨2, [(kbdCommand, 0xA7), (kbdCommand, 0xAD)]⟩ = none :=
    drain_none (fun _ => by decide) rounds
  simp [keyboardInit, controllerCommand, hsent, hnone] at hrun

end MinOS.Keyboard
