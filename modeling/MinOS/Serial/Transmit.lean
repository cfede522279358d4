/-
# MinOS.Serial.Transmit — `kernel/serial.c` and the chip behind it.

The other files about the serial port take a call of `serial_putc` for a byte, or two, on the line. Here the functions
make their port accesses, against the chip of `MinOS.Lib.Uart16550`: any number of byte times may pass before each
of them, and anything may arrive.

Whatever state the chip was in, all calls return if the line keeps moving, and the line gets what was printed in the
order in which it was printed, behind the rest of what was being sent and, perhaps, the byte of the self-test
(`serial_puts_sends`). Interrupt handlers print too, between any two accesses of a print that is going on: the test
whether the transmitter is idle may then be out of date, and it is the FIFO that keeps the byte
(`serial_interleaved`).
-/
import MinOS.Lib.Uart16550
import MinOS.Serial.Numbers

namespace MinOS.Serial.Ports

open Uart16550

/-! ## The functions -/

/-- What the kernel does not decide: the byte times before the access with that number, and what arrives in them -/
structure Wire where
  times : Nat → Nat
  arrivals : Nat → List UInt8

/-- The chip, `serial_initialized`, and the accesses so far -/
structure Com where
  uart : Uart
  serialInitialized : Bool
  accesses : Nat

/-- `COM1_PORT` -/
def com1Port : UInt16 := 0x3F8

section Code

variable (e : Wire)

/-- What happens before an access -/
def pass (c : Com) : Com :=
  { c with
    uart := { c.uart.shifts (e.times c.accesses) with
      receive := (c.uart.shifts (e.times c.accesses)).receive ++ e.arrivals c.accesses }
    accesses := c.accesses + 1 }

/-- `outb`, to the chip -/
def outb (port : UInt16) (value : UInt8) (c : Com) : Com :=
  { pass e c with uart := (pass e c).uart.write (port - com1Port) value }

/-- `inb`, from the chip -/
def inb (port : UInt16) (c : Com) : UInt8 × Com :=
  (((pass e c).uart.read (port - com1Port)).1, { pass e c with uart := ((pass e c).uart.read (port - com1Port)).2 })

/-- The first six writes of `serial_init`: the divisor, the format, the FIFOs -/
def setFormat (c : Com) : Com :=
  let c := outb e (com1Port + 1) 0x00 c
  let c := outb e (com1Port + 3) 0x80 c
  let c := outb e (com1Port + 0) 0x01 c
  let c := outb e (com1Port + 1) 0x00 c
  let c := outb e (com1Port + 3) 0x03 c
  outb e (com1Port + 2) 0xC7 c

/-- `serial_init`. A chip that does not echo the byte is used all the same. -/
def serialInit (c : Com) : Int × Com :=
  let c := setFormat e c
  let c := outb e (com1Port + 4) 0x0B c
  let c := outb e (com1Port + 4) 0x1E c
  let c := outb e (com1Port + 0) 0xAE c
  let (echo, c) := inb e (com1Port + 0) c
  if echo ≠ 0xAE then
    let c := outb e (com1Port + 4) 0x0F c
    (0, { c with serialInitialized := true })
  else
    let c := outb e (com1Port + 4) 0x0F c
    (0, { c with serialInitialized := true })

/-- `is_transmit_empty` -/
def isTransmitEmpty (c : Com) : UInt8 × Com :=
  let (status, c) := inb e (com1Port + 5) c
  (status &&& 0x20, c)

/-- `while (!is_transmit_empty());`, for so many rounds -/
def waitEmpty : (polls : Nat) → Com → Option Com
  | 0, _ => none
  | polls + 1, c =>
    let (empty, c) := isTransmitEmpty e c
    if empty ≠ 0 then some c else waitEmpty polls c

/-- `serial_putc` -/
def serialPutc (polls : Nat) (ch : UInt8) (c : Com) : Option Com := do
  let c := if c.serialInitialized then c else (serialInit e c).2
  let c ← if ch = 10 then do some (outb e com1Port 13 (← waitEmpty e polls c)) else some c
  let c ← waitEmpty e polls c
  some (outb e com1Port ch c)

/-- `serial_puts` -/
def serialPuts (polls : Nat) : (str : List UInt8) → Com → Option Com
  | [], c => some c
  | ch :: str, c => do serialPuts polls str (← serialPutc e polls ch c)

/-- Calls of `serial_puts`, one after the other -/
def serialCalls (polls : Nat) : (calls : List (List UInt8)) → Com → Option Com
  | [], c => some c
  | str :: calls, c => do serialCalls polls calls (← serialPuts e polls str c)

end Code

/-- The line keeps moving. -/
def Wire.Live (e : Wire) : Prop := ∀ n, ∃ m ≥ n, 0 < e.times m

/-- 115200 baud, 8 bits, no parity, FIFOs on, no loopback -/
structure Configured (u : Uart) : Prop where
  lcr : u.lcr = 0x03
  mcr : u.mcr = 0x0F
  fcr : u.fcr = 0xC1
  low : u.divisorLow = 1
  high : u.divisorHigh = 0

theorem Configured.talks {u : Uart} (h : Configured u) : u.Talks := by
  refine ⟨?_, ?_⟩
  · rw [Uart.divisor?, h.lcr]
    decide
  · rw [Uart.loopback?, h.mcr]
    decide

theorem Configured.depth {u : Uart} (h : Configured u) : u.depth = 16 := by
  rw [Uart.depth, h.fcr]
  decide

theorem Configured.of_sameSetup {u v : Uart} (h : Configured u) (hs : Uart.SameSetup u v) : Configured v :=
  ⟨hs.lcr.trans h.lcr, hs.mcr.trans h.mcr, hs.fcr.trans h.fcr, hs.low.trans h.low, hs.high.trans h.high⟩

/-! ## One access -/

variable {e : Wire} {c : Com}

theorem com1Port_add_sub (k : UInt16) : com1Port + k - com1Port = k := by
  rw [UInt16.add_comm, UInt16.add_sub_cancel]

theorem outb_uart (k : UInt16) (value : UInt8) (c : Com) :
    (outb e (com1Port + k) value c).uart = (pass e c).uart.write k value := by
  rw [outb, com1Port_add_sub]

/-- What passing time keeps -/
structure Passed (c c' : Com) : Prop where
  setup : Uart.SameSetup c.uart c'.uart
  lost : c'.uart.lost = c.uart.lost
  sent : c.uart.Talks → c'.uart.sent = c.uart.sent
  transmit : c'.uart.transmit <:+ c.uart.transmit
  initialized : c'.serialInitialized = c.serialInitialized

theorem Passed.trans {c c' c'' : Com} (h : Passed c c') (h' : Passed c' c'') : Passed c c'' :=
  ⟨h.setup.trans h'.setup, h'.lost.trans h.lost, fun ht => (h'.sent (ht.of_sameSetup h.setup)).trans (h.sent ht),
    h'.transmit.trans h.transmit, h'.initialized.trans h.initialized⟩

theorem passed_pass (e : Wire) (c : Com) : Passed c (pass e c) := by
  refine ⟨?_, Uart.lost_shifts _ _, fun ht => ht.sent_shifts _, ?_, rfl⟩
  · obtain ⟨h1, h2, h3, h4, h5, h6⟩ := Uart.sameSetup_shifts (e.times c.accesses) c.uart
    exact ⟨h1, h2, h3, h4, h5, h6⟩
  · show (Uart.shifts (e.times c.accesses) c.uart).transmit <:+ c.uart.transmit
    rw [Uart.transmit_shifts]
    exact List.drop_suffix _ _

/-! ## Waiting -/

/-- A round of the loop -/
theorem waitEmpty_succ (polls : Nat) (c : Com) : waitEmpty e (polls + 1) c =
    if (pass e c).uart.transmit = [] then some (pass e c) else waitEmpty e polls (pass e c) := by
  have hpoll : isTransmitEmpty e c = ((pass e c).uart.status &&& 0x20, pass e c) := by
    rw [isTransmitEmpty, inb, com1Port_add_sub]
    rfl
  rw [waitEmpty, hpoll]
  exact if_congr (Uart.status_and _) rfl rfl

/-- **A wait that came to its end** -/
theorem waitEmpty_some {polls : Nat} : ∀ {c c' : Com}, waitEmpty e polls c = some c' →
    Passed c c' ∧ c'.uart.transmit = [] := by
  induction polls with
  | zero =>
    intro c c' h
    cases h
  | succ polls ih =>
    intro c c' h
    rw [waitEmpty_succ] at h
    split at h
    · rename_i hempty
      obtain rfl := Option.some.inj h
      exact ⟨passed_pass e c, hempty⟩
    · obtain ⟨hpassed, htransmit⟩ := ih h
      exact ⟨(passed_pass e c).trans hpassed, htransmit⟩

/-- More rounds change nothing. -/
theorem waitEmpty_mono {polls polls' : Nat} (hle : polls ≤ polls') : ∀ {c c' : Com}, waitEmpty e polls c = some c' →
    waitEmpty e polls' c = some c' := by
  induction polls generalizing polls' with
  | zero =>
    intro c c' h
    cases h
  | succ polls ih =>
    intro c c' h
    obtain ⟨polls', rfl⟩ := Nat.exists_eq_add_of_le' (Nat.one_le_of_lt hle)
    rw [waitEmpty_succ] at h ⊢
    split
    · rename_i hempty
      rwa [if_pos hempty] at h
    · rename_i hempty
      rw [if_neg hempty] at h
      exact ih (Nat.le_of_succ_le_succ hle) h

/-- **A wait ends**: each byte time that passes takes a byte away, and there is always another one. -/
theorem exists_waitEmpty (hlive : e.Live) : ∀ (bytes : Nat) {c : Com}, c.uart.transmit.length ≤ bytes →
    ∃ polls c', waitEmpty e polls c = some c' := by
  intro bytes
  induction bytes with
  | zero =>
    intro c hbytes
    refine ⟨1, pass e c, ?_⟩
    have hlength := (passed_pass e c).transmit.length_le
    rw [waitEmpty_succ, if_pos (List.eq_nil_of_length_eq_zero (by omega))]
  | succ bytes ih =>
    intro c hbytes
    obtain ⟨m, hm, htime⟩ := hlive c.accesses
    -- the accesses up to the next byte time
    obtain ⟨d, hd⟩ := Nat.exists_eq_add_of_le hm
    induction d generalizing c with
    | zero =>
      have hm' : m = c.accesses := hd
      have hdrop : (pass e c).uart.transmit.length ≤ bytes := by
        show (Uart.shifts (e.times c.accesses) c.uart).transmit.length ≤ bytes
        rw [Uart.transmit_shifts, List.length_drop, ← hm']
        omega
      obtain ⟨polls, c', hwait⟩ := ih hdrop
      by_cases hempty : (pass e c).uart.transmit = []
      · exact ⟨1, pass e c, by rw [waitEmpty_succ, if_pos hempty]⟩
      · exact ⟨polls + 1, c', by rw [waitEmpty_succ, if_neg hempty, hwait]⟩
    | succ d ihd =>
      have hnext : (pass e c).accesses = c.accesses + 1 := rfl
      have hlength := (passed_pass e c).transmit.length_le
      obtain ⟨polls, c', hwait⟩ := ihd (c := pass e c) (by omega) (by omega) (by omega)
      by_cases hempty : (pass e c).uart.transmit = []
      · exact ⟨1, pass e c, by rw [waitEmpty_succ, if_pos hempty]⟩
      · exact ⟨polls + 1, c', by rw [waitEmpty_succ, if_neg hempty, hwait]⟩

/-! ## Byte by byte -/

/-- A wait and a write for each byte -/
def putAll (e : Wire) (polls : Nat) : (bytes : List UInt8) → Com → Option Com
  | [], c => some c
  | b :: bytes, c => do putAll e polls bytes (outb e com1Port b (← waitEmpty e polls c))

/-- What a print has done -/
structure Sends (bytes : List UInt8) (c c' : Com) : Prop where
  setup : Uart.SameSetup c.uart c'.uart
  lost : c'.uart.lost = c.uart.lost
  sent : c'.uart.sent = c.uart.sent ++ bytes
  initialized : c'.serialInitialized = c.serialInitialized

theorem Sends.trans {bytes bytes' : List UInt8} {c c' c'' : Com} (h : Sends bytes c c') (h' : Sends bytes' c' c'') :
    Sends (bytes ++ bytes') c c'' := by
  refine ⟨h.setup.trans h'.setup, h'.lost.trans h.lost, ?_, h'.initialized.trans h.initialized⟩
  rw [h'.sent, h.sent, List.append_assoc]

/-- **A byte is written when the transmitter is idle.** -/
theorem sends_byte (hconf : Configured c.uart) {c' : Com} (hpassed : Passed c c') (hempty : c'.uart.transmit = [])
    (b : UInt8) : Sends [b] c (outb e com1Port b c') := by
  have hpassed' := hpassed.trans (passed_pass e c')
  have hconf' := hconf.of_sameSetup hpassed'.setup
  have hroom : (pass e c').uart.transmit.length < (pass e c').uart.depth := by
    have hlength := (passed_pass e c').transmit.length_le
    rw [hempty, List.length_nil] at hlength
    rw [hconf'.depth]
    omega
  obtain ⟨hsent, hlost, hsetup, -⟩ := hconf'.talks.sent_write (b := b) hroom
  have huart : (outb e com1Port b c').uart = (pass e c').uart.write 0 b := by
    rw [outb, show com1Port - com1Port = 0 from rfl]
  refine ⟨?_, ?_, ?_, hpassed'.initialized⟩
  · rw [huart]
    exact hpassed'.setup.trans hsetup
  · rw [huart, hlost, hpassed'.lost]
  · rw [huart, hsent, hpassed'.sent hconf.talks]

theorem putAll_some {polls : Nat} : ∀ {bytes : List UInt8} {c c' : Com}, Configured c.uart →
    putAll e polls bytes c = some c' → Sends bytes c c' := by
  intro bytes
  induction bytes with
  | nil =>
    intro c c' _ h
    obtain rfl := Option.some.inj h
    exact ⟨Uart.SameSetup.refl _, rfl, (List.append_nil _).symm, rfl⟩
  | cons b bytes ih =>
    intro c c' hconf h
    obtain ⟨c₁, hwait, hrest⟩ := Option.bind_eq_some_iff.mp h
    obtain ⟨hpassed, hempty⟩ := waitEmpty_some hwait
    have hbyte := sends_byte (e := e) hconf hpassed hempty b
    exact hbyte.trans (ih (hconf.of_sameSetup hbyte.setup) hrest)

theorem putAll_mono {polls polls' : Nat} (hle : polls ≤ polls') : ∀ {bytes : List UInt8} {c c' : Com},
    putAll e polls bytes c = some c' → putAll e polls' bytes c = some c' := by
  intro bytes
  induction bytes with
  | nil =>
    intro c c' h
    exact h
  | cons b bytes ih =>
    intro c c' h
    obtain ⟨c₁, hwait, hrest⟩ := Option.bind_eq_some_iff.mp h
    exact Option.bind_eq_some_iff.mpr ⟨c₁, waitEmpty_mono hle hwait, ih hrest⟩

theorem exists_putAll (hlive : e.Live) : ∀ (bytes : List UInt8) (c : Com),
    ∃ polls c', putAll e polls bytes c = some c' := by
  intro bytes
  induction bytes with
  | nil => exact fun c => ⟨0, c, rfl⟩
  | cons b bytes ih =>
    intro c
    obtain ⟨polls₁, c₁, hwait⟩ := exists_waitEmpty hlive _ (le_refl c.uart.transmit.length)
    obtain ⟨polls₂, c₂, hrest⟩ := ih (outb e com1Port b c₁)
    refine ⟨max polls₁ polls₂, c₂, Option.bind_eq_some_iff.mpr ⟨c₁, ?_, ?_⟩⟩
    · exact waitEmpty_mono (le_max_left _ _) hwait
    · exact putAll_mono (le_max_right _ _) hrest

theorem putAll_append (polls : Nat) (bytes bytes' : List UInt8) (c : Com) :
    putAll e polls (bytes ++ bytes') c = putAll e polls bytes c >>= putAll e polls bytes' := by
  induction bytes generalizing c with
  | nil => rfl
  | cons b bytes ih =>
    rw [List.cons_append, putAll, putAll, Option.bind_eq_bind, Option.bind_assoc]
    simp only [ih, Option.bind_eq_bind]

/-! ## The functions, byte by byte -/

theorem serialPutc_eq (polls : Nat) (ch : UInt8) (hinit : c.serialInitialized = true) :
    serialPutc e polls ch c = putAll e polls (Serial.serialPutc ch) c := by
  rw [serialPutc, if_pos hinit, Serial.serialPutc]
  by_cases hline : ch = 10
  · subst hline
    simp only [if_true, putAll, Option.bind_eq_bind, Option.bind_some]
  · simp only [if_neg hline, putAll, Option.bind_eq_bind, Option.bind_some]

/-- A chip that was not set up is set up by the first character. -/
theorem serialPutc_uninitialized (polls : Nat) (ch : UInt8) (hinit : c.serialInitialized = false) :
    serialPutc e polls ch c = serialPutc e polls ch (serialInit e c).2 := by
  have hdone : (serialInit e c).2.serialInitialized = true := by
    rw [serialInit]
    simp only
    split <;> rfl
  simp only [serialPutc, hinit, hdone, if_true, Bool.false_eq_true, if_false]

theorem serialPuts_eq (polls : Nat) (str : List UInt8) : ∀ {c : Com}, Configured c.uart → c.serialInitialized = true →
    serialPuts e polls str c = putAll e polls (Serial.serialPuts str) c := by
  induction str with
  | nil =>
    intro c _ _
    rfl
  | cons ch str ih =>
    intro c hconf hinit
    rw [serialPuts, serialPutc_eq polls ch hinit, Serial.serialPuts, List.flatMap_cons, putAll_append]
    refine Option.bind_congr fun c₁ h₁ => ?_
    have hsends := putAll_some hconf h₁
    exact ih (hconf.of_sameSetup hsends.setup) (hsends.initialized.trans hinit)

theorem serialCalls_eq (polls : Nat) (calls : List (List UInt8)) : ∀ {c : Com}, Configured c.uart →
    c.serialInitialized = true → serialCalls e polls calls c = putAll e polls (calls.flatMap Serial.serialPuts) c := by
  induction calls with
  | nil =>
    intro c _ _
    rfl
  | cons str calls ih =>
    intro c hconf hinit
    rw [serialCalls, serialPuts_eq polls str hconf hinit, List.flatMap_cons, putAll_append]
    refine Option.bind_congr fun c₁ h₁ => ?_
    have hsends := putAll_some hconf h₁
    exact ih (hconf.of_sameSetup hsends.setup) (hsends.initialized.trans hinit)

/-! ## `serial_init` -/

/-- Up to the clearing of the FIFOs some bytes of those that were waiting go out, or round. -/
structure Drained (u v : Uart) : Prop where
  mcr : v.mcr = u.mcr
  lost : v.lost = u.lost
  out : ∃ k, v.transmit = u.transmit.drop k ∧
    v.line = u.line ++ if u.loopback? then [] else u.transmit.take k

theorem Drained.refl (u : Uart) : Drained u u := by
  refine ⟨rfl, rfl, 0, rfl, ?_⟩
  simp

theorem line_shifts (n : Nat) (u : Uart) :
    (Uart.shifts n u).line = u.line ++ if u.loopback? then [] else u.transmit.take n := by
  induction n with
  | zero => simp [Uart.shifts]
  | succ n ih =>
    have hloop : (Uart.shifts n u).loopback? = u.loopback? := by
      rw [Uart.loopback?, Uart.loopback?, (Uart.sameSetup_shifts n u).mcr]
    rw [Uart.shifts_succ, Uart.shift]
    split
    · rename_i hnil
      have hle : u.transmit.length ≤ n := by
        rw [Uart.transmit_shifts] at hnil
        exact List.drop_eq_nil_iff.mp hnil
      rw [ih, List.take_of_length_le hle, List.take_of_length_le (Nat.le_succ_of_le hle)]
    · rename_i b rest hcons
      rw [Uart.transmit_shifts] at hcons
      rw [hloop]
      split
      · rename_i hl
        rw [ih, if_pos hl]
      · rename_i hl
        have htake : u.transmit.take (n + 1) = u.transmit.take n ++ [b] := by
          have hget : u.transmit[n]? = some b := by
            have := congrArg List.head? hcons
            rwa [List.head?_drop] at this
          rw [List.take_add_one, hget]
          rfl
        rw [ih, if_neg hl, htake, List.append_assoc]

/-- Time passes. -/
theorem Drained.pass {u : Uart} (h : Drained u c.uart) : Drained u (pass e c).uart := by
  obtain ⟨k, htransmit, hline⟩ := h.out
  have hloop : c.uart.loopback? = u.loopback? := by
    rw [Uart.loopback?, Uart.loopback?, h.mcr]
  refine ⟨(Uart.sameSetup_shifts _ _).mcr.trans h.mcr, (Uart.lost_shifts _ _).trans h.lost,
    k + e.times c.accesses, ?_, ?_⟩
  · show (Uart.shifts (e.times c.accesses) c.uart).transmit = _
    rw [Uart.transmit_shifts, htransmit, List.drop_drop]
  · show (Uart.shifts (e.times c.accesses) c.uart).line = _
    rw [line_shifts, hline, hloop, htransmit, List.append_assoc]
    split
    · rfl
    · rw [List.take_add]

theorem Drained.congr {u v w : Uart} (h : Drained u v) (hmcr : w.mcr = v.mcr) (hlost : w.lost = v.lost)
    (htransmit : w.transmit = v.transmit) (hline : w.line = v.line) : Drained u w := by
  obtain ⟨k, hk, hout⟩ := h.out
  exact ⟨hmcr.trans h.mcr, hlost.trans h.lost, k, htransmit.trans hk, hline.trans hout⟩

/-- The part that went out was at the front. -/
theorem Drained.old {u v : Uart} (h : Drained u v) : ∃ old, old <+: u.transmit ∧ v.line = u.line ++ old := by
  obtain ⟨k, -, hline⟩ := h.out
  refine ⟨_, ?_, hline⟩
  split
  · exact List.nil_prefix
  · exact List.take_prefix _ _

/-- After the first six writes. The interrupt enable register is cleared only if it was in its place. -/
structure Formatted (u v : Uart) : Prop where
  lcr : v.lcr = 0x03
  fcr : v.fcr = 0xC1
  low : v.divisorLow = 1
  high : v.divisorHigh = 0
  transmit : v.transmit = []
  lost : v.lost = u.lost
  old : ∃ old, old <+: u.transmit ∧ v.line = u.line ++ old
  ier : u.divisor? = false → v.ier = 0

/-- The divisor stays in its place, or out of it, while time passes. -/
theorem divisor_pass (c : Com) : (pass e c).uart.divisor? = c.uart.divisor? := by
  rw [Uart.divisor?, Uart.divisor?, (passed_pass e c).setup.lcr]

theorem formatted_setFormat (c : Com) : Formatted c.uart (setFormat e c).uart := by
  rw [setFormat]
  generalize hc₁ : outb e (com1Port + 1) 0x00 c = c₁
  generalize hc₂ : outb e (com1Port + 3) 0x80 c₁ = c₂
  generalize hc₃ : outb e (com1Port + 0) 0x01 c₂ = c₃
  generalize hc₄ : outb e (com1Port + 1) 0x00 c₃ = c₄
  generalize hc₅ : outb e (com1Port + 3) 0x03 c₄ = c₅
  -- the first write goes to the interrupt enable register or to the divisor
  have h₁ : Drained c.uart c₁.uart ∧ (c.uart.divisor? = false → c₁.uart.ier = 0) := by
    rw [← hc₁, outb_uart]
    cases hd : (pass e c).uart.divisor? with
    | false =>
      rw [Uart.write_enable _ hd]
      exact ⟨((Drained.refl c.uart).pass (e := e)).congr rfl rfl rfl rfl, fun _ => rfl⟩
    | true =>
      rw [Uart.write_divisorHigh _ hd]
      refine ⟨((Drained.refl c.uart).pass (e := e)).congr rfl rfl rfl rfl, fun h => ?_⟩
      rw [divisor_pass, h] at hd
      cases hd
  have h₂ : c₂.uart = { (pass e c₁).uart with lcr := 0x80 } := by
    rw [← hc₂, outb_uart, Uart.write_format]
  have hd₂ : (pass e c₂).uart.divisor? = true := by
    rw [divisor_pass, Uart.divisor?, h₂]
    show ((0x80 : UInt8) &&& 0x80 != 0) = true
    decide
  have h₃ : c₃.uart = { (pass e c₂).uart with divisorLow := 0x01 } := by
    rw [← hc₃, outb_uart, Uart.write_divisorLow _ hd₂]
  have hd₃ : (pass e c₃).uart.divisor? = true := by
    rw [divisor_pass, h₃]
    exact hd₂
  have h₄ : c₄.uart = { (pass e c₃).uart with divisorHigh := 0x00 } := by
    rw [← hc₄, outb_uart, Uart.write_divisorHigh _ hd₃]
  have h₅ : c₅.uart = { (pass e c₄).uart with lcr := 0x03 } := by
    rw [← hc₅, outb_uart, Uart.write_format]
  have hout : Drained c.uart (pass e c₅).uart := by
    have hd₂ : Drained c.uart c₂.uart := (h₁.1.pass (e := e)).congr (by rw [h₂]) (by rw [h₂]) (by rw [h₂]) (by rw [h₂])
    have hd₃ : Drained c.uart c₃.uart := (hd₂.pass (e := e)).congr (by rw [h₃]) (by rw [h₃]) (by rw [h₃]) (by rw [h₃])
    have hd₄ : Drained c.uart c₄.uart := (hd₃.pass (e := e)).congr (by rw [h₄]) (by rw [h₄]) (by rw [h₄]) (by rw [h₄])
    exact ((hd₄.pass (e := e)).congr (by rw [h₅]) (by rw [h₅]) (by rw [h₅]) (by rw [h₅])).pass
  have hs₂ := (passed_pass e c₁).setup
  have hs₃ := (passed_pass e c₂).setup
  have hs₄ := (passed_pass e c₃).setup
  have hs₅ := (passed_pass e c₄).setup
  have hs₆ := (passed_pass e c₅).setup
  have hlow : c₅.uart.divisorLow = 1 := by
    rw [h₅]
    show (pass e c₄).uart.divisorLow = 1
    rw [hs₅.low, h₄]
    show (pass e c₃).uart.divisorLow = 1
    rw [hs₄.low, h₃]
  have hhigh : c₅.uart.divisorHigh = 0 := by
    rw [h₅]
    show (pass e c₄).uart.divisorHigh = 0
    rw [hs₅.high, h₄]
  have hier : c₅.uart.ier = c₁.uart.ier := by
    rw [h₅]
    show (pass e c₄).uart.ier = _
    rw [hs₅.ier, h₄]
    show (pass e c₃).uart.ier = _
    rw [hs₄.ier, h₃]
    show (pass e c₂).uart.ier = _
    rw [hs₃.ier, h₂]
    exact hs₂.ier
  have hbits : (0xC7 : UInt8) &&& 4 ≠ 0 := by decide
  rw [outb_uart, Uart.write_control, Uart.control, if_pos (Or.inl hbits)]
  refine ⟨?_, rfl, hs₆.low.trans hlow, hs₆.high.trans hhigh, rfl, hout.lost, hout.old, fun h => ?_⟩
  · show (pass e c₅).uart.lcr = 3
    rw [hs₆.lcr, h₅]
  · exact (hs₆.ier.trans hier).trans (h₁.2 h)

/-- With nothing to send, time changes nothing. -/
theorem Formatted.pass {u : Uart} (h : Formatted u c.uart) : Formatted u (pass e c).uart := by
  have hs := (passed_pass e c).setup
  refine ⟨hs.lcr.trans h.lcr, hs.fcr.trans h.fcr, hs.low.trans h.low, hs.high.trans h.high, ?_,
    (passed_pass e c).lost.trans h.lost, ?_, fun hd => hs.ier.trans (h.ier hd)⟩
  · have hsuffix := (passed_pass e c).transmit
    rw [h.transmit] at hsuffix
    exact List.suffix_nil.mp hsuffix
  · obtain ⟨old, hold, hline⟩ := h.old
    refine ⟨old, hold, ?_⟩
    show (Uart.shifts (e.times c.accesses) c.uart).line = _
    rw [line_shifts, h.transmit, List.take_nil, hline, ite_self, List.append_nil]

theorem Formatted.modem {u v : Uart} (h : Formatted u v) (mcr : UInt8) : Formatted u { v with mcr } :=
  ⟨h.lcr, h.fcr, h.low, h.high, h.transmit, h.lost, h.old, h.ier⟩

/-- The test byte is in the chip, in loopback, or has gone round. -/
structure Testing (u v : Uart) : Prop where
  lcr : v.lcr = 0x03
  fcr : v.fcr = 0xC1
  low : v.divisorLow = 1
  high : v.divisorHigh = 0
  mcr : v.mcr = 0x1E
  lost : v.lost = u.lost
  transmit : v.transmit = [] ∨ v.transmit = [0xAE]
  old : ∃ old, old <+: u.transmit ∧ v.line = u.line ++ old
  ier : u.divisor? = false → v.ier = 0

theorem Testing.pass {u : Uart} (h : Testing u c.uart) : Testing u (pass e c).uart := by
  have hs := (passed_pass e c).setup
  refine ⟨hs.lcr.trans h.lcr, hs.fcr.trans h.fcr, hs.low.trans h.low, hs.high.trans h.high, hs.mcr.trans h.mcr,
    (passed_pass e c).lost.trans h.lost, ?_, ?_, fun hd => hs.ier.trans (h.ier hd)⟩
  · have hsuffix := (passed_pass e c).transmit
    rcases h.transmit with hnil | hbyte
    · rw [hnil] at hsuffix
      exact Or.inl (List.suffix_nil.mp hsuffix)
    · rw [hbyte] at hsuffix
      rcases List.suffix_cons_iff.mp hsuffix with heq | hsuffix
      · exact Or.inr heq
      · exact Or.inl (List.suffix_nil.mp hsuffix)
  · obtain ⟨old, hold, hline⟩ := h.old
    refine ⟨old, hold, ?_⟩
    have hloop : c.uart.loopback? = true := by
      rw [Uart.loopback?, h.mcr]
      decide
    show (Uart.shifts (e.times c.accesses) c.uart).line = _
    rw [line_shifts, hloop, if_pos rfl, List.append_nil, hline]

/-- `serial_init` has done this, whatever the chip was doing. -/
structure Started (u : Uart) (c : Com) : Prop where
  configured : Configured c.uart
  initialized : c.serialInitialized = true
  lost : c.uart.lost = u.lost
  transmit : c.uart.transmit.length ≤ 1
  sent : ∃ old test, old <+: u.transmit ∧ (test = [] ∨ test = [0xAE]) ∧ c.uart.sent = u.line ++ old ++ test
  ier : u.divisor? = false → c.uart.ier = 0

/-- **`serial_init` on any chip** -/
theorem started_serialInit (e : Wire) (c : Com) :
    (serialInit e c).1 = 0 ∧ Started c.uart (serialInit e c).2 := by
  have h₁ := formatted_setFormat (e := e) c
  generalize hc₁ : setFormat e c = c₁ at h₁
  generalize hc₂ : outb e (com1Port + 4) 0x0B c₁ = c₂
  generalize hc₃ : outb e (com1Port + 4) 0x1E c₂ = c₃
  generalize hc₄ : outb e (com1Port + 0) 0xAE c₃ = c₄
  have h₂ : Formatted c.uart c₂.uart := by
    rw [← hc₂, outb_uart, Uart.write_modem]
    exact (h₁.pass (e := e)).modem 0x0B
  have h₃ : Formatted c.uart (pass e c₃).uart ∧ (pass e c₃).uart.mcr = 0x1E := by
    have huart : c₃.uart = { (pass e c₂).uart with mcr := 0x1E } := by
      rw [← hc₃, outb_uart, Uart.write_modem]
    refine ⟨Formatted.pass ?_, ?_⟩
    · rw [huart]
      exact (h₂.pass (e := e)).modem 0x1E
    · rw [(passed_pass e c₃).setup.mcr, huart]
  have h₄ : Testing c.uart c₄.uart := by
    obtain ⟨hf, hmcr⟩ := h₃
    have hdata : (pass e c₃).uart.divisor? = false := by
      rw [Uart.divisor?, hf.lcr]
      decide
    have hput : (pass e c₃).uart.write 0 0xAE = { (pass e c₃).uart with transmit := [0xAE] } := by
      have hroom : (pass e c₃).uart.transmit.length < (pass e c₃).uart.depth := by
        rw [Uart.depth, hf.fcr, hf.transmit]
        decide
      rw [Uart.write, if_pos rfl, hdata, if_neg Bool.false_ne_true, Uart.put, if_pos hroom, hf.transmit]
      rfl
    rw [← hc₄, outb_uart, hput]
    exact ⟨hf.lcr, hf.fcr, hf.low, hf.high, hmcr, hf.lost, Or.inr rfl, hf.old, hf.ier⟩
  -- the answer is read, and the port leaves the loopback, whatever the answer is
  have h₅ : Testing c.uart (pass e (inb e (com1Port + 0) c₄).2).uart := by
    obtain ⟨hlcr, hfcr, hlow, hhigh, hmcr, hlost, htransmit, hold, hier⟩ := h₄.pass (e := e)
    have hdata : (pass e c₄).uart.divisor? = false := by
      rw [Uart.divisor?, hlcr]
      decide
    refine Testing.pass ?_
    rw [inb, com1Port_add_sub, Uart.read, if_pos rfl, hdata, if_neg Bool.false_ne_true]
    exact ⟨hlcr, hfcr, hlow, hhigh, hmcr, hlost, htransmit, hold, hier⟩
  have hinit : serialInit e c = (0, { outb e (com1Port + 4) 0x0F (inb e (com1Port + 0) c₄).2 with
      serialInitialized := true }) := by
    rw [serialInit]
    simp only [hc₁, hc₂, hc₃, hc₄, ite_self]
  have huart : (serialInit e c).2.uart = { (pass e (inb e (com1Port + 0) c₄).2).uart with mcr := 0x0F } := by
    rw [hinit]
    show (outb e (com1Port + 4) 0x0F (inb e (com1Port + 0) c₄).2).uart = _
    rw [outb_uart, Uart.write_modem]
  have hdone : (serialInit e c).2.serialInitialized = true := by rw [hinit]
  refine ⟨by rw [hinit], ?_⟩
  generalize (serialInit e c).2 = c' at huart hdone
  refine ⟨⟨?_, ?_, ?_, ?_, ?_⟩, hdone, ?_, ?_, ?_, ?_⟩
  · rw [huart]
    exact h₅.lcr
  · rw [huart]
  · rw [huart]
    exact h₅.fcr
  · rw [huart]
    exact h₅.low
  · rw [huart]
    exact h₅.high
  · rw [huart]
    exact h₅.lost
  · rw [huart]
    show (pass e (inb e (com1Port + 0) c₄).2).uart.transmit.length ≤ 1
    rcases h₅.transmit with hnil | hbyte
    · rw [hnil]
      exact Nat.zero_le 1
    · rw [hbyte]
      exact le_rfl
  · obtain ⟨old, hold, hline⟩ := h₅.old
    refine ⟨old, (pass e (inb e (com1Port + 0) c₄).2).uart.transmit, hold, h₅.transmit, ?_⟩
    rw [huart]
    show (pass e (inb e (com1Port + 0) c₄).2).uart.line ++ _ = _
    rw [hline]
  · intro hd
    rw [huart]
    exact h₅.ier hd

/-- **The log comes out in order.** Whatever the chip was doing, and however its line keeps moving: after `serial_init`
all calls of `serial_puts` return, the port is set up, and no byte was lost; the bytes sent are those of before, the
front of what was waiting then, perhaps the byte of the self-test, and all that was printed, each line feed behind a
carriage return. A print before `serial_init` calls it. -/
theorem serial_puts_sends (e : Wire) (hlive : e.Live) (c : Com) (calls : List (List UInt8)) :
    (∃ polls c', (∀ polls' ≥ polls, serialCalls e polls' calls (serialInit e c).2 = some c') ∧
      Configured c'.uart ∧ c'.uart.lost = c.uart.lost ∧
      ∃ old test, old <+: c.uart.transmit ∧ (test = [] ∨ test = [0xAE]) ∧
        c'.uart.sent = c.uart.line ++ old ++ test ++ calls.flatMap Serial.serialPuts) ∧
    (c.serialInitialized = false → ∀ polls ch,
      serialPutc e polls ch c = serialPutc e polls ch (serialInit e c).2) := by
  obtain ⟨-, hstarted⟩ := started_serialInit e c
  refine ⟨?_, fun hinit polls ch => serialPutc_uninitialized polls ch hinit⟩
  obtain ⟨polls, c', hput⟩ := exists_putAll hlive (calls.flatMap Serial.serialPuts) (serialInit e c).2
  have hsends := putAll_some hstarted.configured hput
  obtain ⟨old, test, hold, htest, hsent⟩ := hstarted.sent
  refine ⟨polls, c', fun polls' hle => ?_, hstarted.configured.of_sameSetup hsends.setup,
    hsends.lost.trans hstarted.lost, old, test, hold, htest, ?_⟩
  · rw [serialCalls_eq polls' calls hstarted.configured hstarted.initialized]
    exact putAll_mono hle hput
  · rw [hsends.sent, hsent]

/-- A line on which a byte goes out before each access -/
def steadyWire : Wire := ⟨fun _ => 1, fun _ => []⟩

/-- A chip that was left in loopback, with the divisor in front of the data register -/
def strangeCom : Com := ⟨⟨0xFF, 0x80, 0x10, 0, 12, 0, [1], [2], [], 0⟩, false, 0⟩

theorem serial_puts_sends_strange :
    (∃ polls c', (∀ polls' ≥ polls, serialCalls steadyWire polls' [[72, 10], [105]]
        (serialInit steadyWire strangeCom).2 = some c') ∧
      Configured c'.uart ∧ c'.uart.lost = strangeCom.uart.lost ∧
      ∃ old test, old <+: strangeCom.uart.transmit ∧ (test = [] ∨ test = [0xAE]) ∧
        c'.uart.sent = strangeCom.uart.line ++ old ++ test ++ [[72, 10], [105]].flatMap Serial.serialPuts) ∧
    (strangeCom.serialInitialized = false → ∀ polls ch,
      serialPutc steadyWire polls ch strangeCom
        = serialPutc steadyWire polls ch (serialInit steadyWire strangeCom).2) :=
  serial_puts_sends steadyWire (fun n => ⟨n, le_rfl, Nat.one_pos⟩) strangeCom [[72, 10], [105]]

/-! ## Prints that interrupt each other -/

/-- The main loop, or the interrupt handler that runs; interrupts are off in the handlers. -/
inductive Party
  | main
  | handler
  deriving DecidableEq

/-- The bytes of a print that are still to be written, and whether the last poll found the transmitter idle -/
structure Writer where
  rest : List UInt8
  ready : Bool
  deriving DecidableEq

/-- The chip, both parties, and what has been written and printed by them -/
structure Log where
  uart : Uart
  writers : Party → Writer
  inHandler : Bool
  written : List (Party × UInt8)
  printed : Party → List UInt8

/-- The party that has the processor -/
def Log.active (m : Log) : Party := if m.inHandler then .handler else .main

/-- What can happen next. An interrupt comes between any two accesses. -/
inductive Step : Log → Log → Prop
  | time (m : Log) : Step m { m with uart := m.uart.shift }
  | arrive (m : Log) (bytes : List UInt8) : Step m { m with uart := { m.uart with receive := m.uart.receive ++ bytes } }
  /-- a call of `serial_puts` -/
  | print (m : Log) (str : List UInt8) (h : m.writers m.active = ⟨[], false⟩) :
      Step m { m with
        writers := Function.update m.writers m.active ⟨Serial.serialPuts str, false⟩
        printed := Function.update m.printed m.active (m.printed m.active ++ str) }
  | poll (m : Log) (hrest : (m.writers m.active).rest ≠ []) (hready : (m.writers m.active).ready = false) :
      Step m { m with
        writers := Function.update m.writers m.active ⟨(m.writers m.active).rest, m.uart.status &&& 0x20 != 0⟩ }
  | write (m : Log) (b : UInt8) (rest : List UInt8) (h : m.writers m.active = ⟨b :: rest, true⟩) :
      Step m { m with
        uart := m.uart.write 0 b
        writers := Function.update m.writers m.active ⟨rest, false⟩
        written := m.written ++ [(m.active, b)] }
  | interrupt (m : Log) (h : m.inHandler = false) : Step m { m with inHandler := true }
  | iret (m : Log) (h : m.inHandler = true) (hdone : m.writers .handler = ⟨[], false⟩) :
      Step m { m with inHandler := false }

/-- Nothing is being printed. -/
def Log.start (uart : Uart) : Log := ⟨uart, fun _ => ⟨[], false⟩, false, [], fun _ => []⟩

/-- The states of all interleavings -/
inductive Reach (o : Log) : Log → Prop
  | start : Reach o o
  | step {m m' : Log} (h : Reach o m) (hstep : Step m m') : Reach o m'

/-- The bytes that a party has written -/
def Log.writtenBy (m : Log) (p : Party) : List UInt8 := (m.written.filter (·.1 = p)).map Prod.snd

/-- The invariant. The main loop writes one byte after its poll; whatever the handlers wrote in between, they waited
for their own bytes but the last. -/
structure Orderly (u : Uart) (m : Log) : Prop where
  configured : Configured m.uart
  lost : m.uart.lost = u.lost
  sent : m.uart.sent = u.sent ++ m.written.map Prod.snd
  bytes : ∀ p, m.writtenBy p ++ (m.writers p).rest = Serial.serialPuts (m.printed p)
  handlerReady : (m.writers .handler).ready = true → m.uart.transmit = []
  mainReady : (m.writers .main).ready = true → m.uart.transmit.length ≤ 1
  length : m.uart.transmit.length ≤ 2
  away : m.inHandler = false → m.writers .handler = ⟨[], false⟩

theorem orderly_start {u : Uart} (h : Configured u) (hlength : u.transmit.length ≤ 1) :
    Orderly u (Log.start u) :=
  ⟨h, rfl, (List.append_nil _).symm, fun _ => rfl, fun h => absurd h Bool.false_ne_true, fun _ => hlength,
    Nat.le_succ_of_le hlength, fun _ => rfl⟩

theorem active_main {m : Log} (h : m.inHandler = false) : m.active = .main := by
  rw [Log.active, h, if_neg Bool.false_ne_true]

theorem active_handler {m : Log} (h : m.inHandler = true) : m.active = .handler := by
  rw [Log.active, h, if_pos rfl]

section Steps

variable {u : Uart} {m : Log} (h : Orderly u m)
include h

/-- The chip moves, and no party does. -/
theorem Orderly.chip {uart : Uart} (hsetup : Uart.SameSetup m.uart uart) (hlost : uart.lost = m.uart.lost)
    (hsent : uart.sent = m.uart.sent) (htransmit : uart.transmit <:+ m.uart.transmit) :
    Orderly u { m with uart } := by
  have hlength := htransmit.length_le
  refine ⟨h.configured.of_sameSetup hsetup, hlost.trans h.lost, hsent.trans h.sent, h.bytes, fun hr => ?_,
    fun hr => hlength.trans (h.mainReady hr), hlength.trans h.length, h.away⟩
  have hnil := h.handlerReady hr
  rw [hnil] at htransmit
  exact List.suffix_nil.mp htransmit

/-- The active party changes its mind about the chip, or has something new to write. -/
theorem Orderly.turn {w : Writer} {printed : Party → List UInt8} (hready : w.ready = true → m.uart.transmit = [])
    (hbytes : m.writtenBy m.active ++ w.rest = Serial.serialPuts (printed m.active))
    (hother : ∀ p, p ≠ m.active → printed p = m.printed p) :
    Orderly u { m with writers := Function.update m.writers m.active w, printed } := by
  refine ⟨h.configured, h.lost, h.sent, fun p => ?_, fun hr => ?_, fun hr => ?_, h.length, fun hin => ?_⟩
  · show m.writtenBy p ++ (Function.update m.writers m.active w p).rest = Serial.serialPuts (printed p)
    by_cases hp : p = m.active
    · rw [hp, Function.update_self]
      exact hbytes
    · rw [Function.update_of_ne hp, hother p hp]
      exact h.bytes p
  · dsimp only at hr ⊢
    by_cases hp : Party.handler = m.active
    · rw [← hp, Function.update_self] at hr
      exact hready hr
    · rw [Function.update_of_ne hp] at hr
      exact h.handlerReady hr
  · dsimp only at hr ⊢
    by_cases hp : Party.main = m.active
    · rw [← hp, Function.update_self] at hr
      rw [hready hr]
      exact Nat.zero_le 1
    · rw [Function.update_of_ne hp] at hr
      exact h.mainReady hr
  · dsimp only at hin ⊢
    have hne : Party.handler ≠ m.active := by
      rw [active_main hin]
      decide
    rw [Function.update_of_ne hne]
    exact h.away hin

/-- **A byte is written.** It finds the transmitter idle, or with the last byte of a handler in it. -/
theorem Orderly.write {b : UInt8} {rest : List UInt8} (hready : m.writers m.active = ⟨b :: rest, true⟩) :
    Orderly u { m with
      uart := m.uart.write 0 b
      writers := Function.update m.writers m.active ⟨rest, false⟩
      written := m.written ++ [(m.active, b)] } := by
  have hlength : m.uart.transmit.length ≤ 1 := by
    cases hin : m.inHandler with
    | false =>
      refine h.mainReady ?_
      rw [← active_main hin, hready]
    | true =>
      have hnil : m.uart.transmit = [] := by
        refine h.handlerReady ?_
        rw [← active_handler hin, hready]
      rw [hnil]
      exact Nat.zero_le 1
  have hempty : m.inHandler = true → m.uart.transmit = [] := by
    intro hin
    refine h.handlerReady ?_
    rw [← active_handler hin, hready]
  have hroom : m.uart.transmit.length < m.uart.depth := by
    rw [h.configured.depth]
    omega
  obtain ⟨hsent, hlost, hsetup, htransmit⟩ := h.configured.talks.sent_write (b := b) hroom
  have hnew : (m.uart.write 0 b).transmit.length = m.uart.transmit.length + 1 := by
    rw [htransmit, List.length_append, List.length_singleton]
  refine ⟨h.configured.of_sameSetup hsetup, hlost.trans h.lost, ?_, fun p => ?_, fun hr => ?_, fun hr => ?_, ?_,
    fun hin => ?_⟩
  · rw [hsent, h.sent, List.append_assoc, List.map_append]
    rfl
  · show (List.filter _ (m.written ++ [(m.active, b)])).map Prod.snd
        ++ (Function.update m.writers m.active _ p).rest = _
    have hbytes := h.bytes p
    by_cases hp : p = m.active
    · rw [hp, hready] at hbytes
      rw [hp, Function.update_self, List.filter_append, List.map_append, ← hbytes, List.append_assoc]
      simp [Log.writtenBy]
    · rw [Function.update_of_ne hp, List.filter_append, List.map_append, ← hbytes]
      simp [Log.writtenBy, Ne.symm hp]
  · dsimp only at hr ⊢
    by_cases hp : Party.handler = m.active
    · rw [← hp, Function.update_self] at hr
      cases hr
    · rw [Function.update_of_ne hp] at hr
      -- a handler that is away has nothing to write
      have hin : m.inHandler = false := by
        cases hin : m.inHandler with
        | false => rfl
        | true => exact absurd (active_handler hin).symm hp
      rw [h.away hin] at hr
      cases hr
  · dsimp only at hr ⊢
    by_cases hp : Party.main = m.active
    · rw [← hp, Function.update_self] at hr
      cases hr
    · have hin : m.inHandler = true := by
        cases hin : m.inHandler with
        | false => exact absurd (active_main hin).symm hp
        | true => rfl
      rw [hnew, hempty hin]
      exact le_rfl
  · show (m.uart.write 0 b).transmit.length ≤ 2
    omega
  · dsimp only at hin ⊢
    have hne : Party.handler ≠ m.active := by
      rw [active_main hin]
      decide
    rw [Function.update_of_ne hne]
    exact h.away hin

/-- **Every step keeps the invariant.** -/
theorem Orderly.step {m' : Log} (hstep : Step m m') : Orderly u m' := by
  cases hstep with
  | time =>
    refine h.chip (Uart.sameSetup_shift _) (Uart.lost_shift _) h.configured.talks.sent_shift ?_
    rw [Uart.transmit_shift]
    exact List.tail_suffix _
  | arrive bytes => exact h.chip ⟨rfl, rfl, rfl, rfl, rfl, rfl⟩ rfl rfl (List.suffix_refl _)
  | print str hidle =>
    have hbytes := h.bytes m.active
    rw [hidle, List.append_nil] at hbytes
    refine h.turn (fun hr => absurd hr Bool.false_ne_true) ?_ fun p hp => Function.update_of_ne hp _ _
    rw [Function.update_self, hbytes]
    exact List.flatMap_append.symm
  | poll hrest hready =>
    refine h.turn (fun hr => ?_) (h.bytes m.active) fun _ _ => rfl
    exact (Uart.status_and _).mp (bne_iff_ne.mp hr)
  | write b rest hready => exact h.write hready
  | interrupt hin =>
    refine ⟨h.configured, h.lost, h.sent, h.bytes, h.handlerReady, h.mainReady, h.length, fun hin' => ?_⟩
    cases hin'
  | iret hin hdone =>
    exact ⟨h.configured, h.lost, h.sent, h.bytes, h.handlerReady, h.mainReady, h.length, fun _ => hdone⟩

end Steps

theorem Reach.orderly {u : Uart} {m : Log} (hu : Configured u) (hlength : u.transmit.length ≤ 1)
    (h : Reach (Log.start u) m) : Orderly u m := by
  induction h with
  | start => exact orderly_start hu hlength
  | step _ hstep ih => exact ih.step hstep

/-! ### The functions, step by step -/

theorem Reach.trans {o m m' : Log} (h : Reach o m) (h' : Reach m m') : Reach o m' := by
  induction h' with
  | start => exact h
  | step _ hstep ih => exact .step ih hstep

theorem reach_shifts (n : Nat) (m : Log) : Reach m { m with uart := m.uart.shifts n } := by
  induction n with
  | zero => exact .start
  | succ n ih =>
    rw [Uart.shifts_succ]
    exact .step ih (.time _)

theorem reach_pass {m : Log} (huart : m.uart = c.uart) : Reach m { m with uart := (pass e c).uart } := by
  have hshifts := reach_shifts (e.times c.accesses) m
  rw [huart] at hshifts
  exact .step hshifts (.arrive _ (e.arrivals c.accesses))

/-- A wait, as polls of the active party -/
theorem reach_waitEmpty {polls : Nat} : ∀ {c c' : Com} {m : Log}, waitEmpty e polls c = some c' → m.uart = c.uart →
    (m.writers m.active).rest ≠ [] → (m.writers m.active).ready = false →
      Reach m { m with
        uart := c'.uart
        writers := Function.update m.writers m.active ⟨(m.writers m.active).rest, true⟩ } := by
  induction polls with
  | zero =>
    intro c c' m h
    cases h
  | succ polls ih =>
    intro c c' m h huart hrest hready
    rw [waitEmpty_succ] at h
    have hpass := reach_pass (e := e) huart
    have hpoll := Reach.step hpass (.poll _ hrest hready)
    dsimp only at hpoll
    split at h
    · rename_i hempty
      obtain rfl := Option.some.inj h
      have hbit : ((pass e c).uart.status &&& 0x20 != 0) = true := bne_iff_ne.mpr ((Uart.status_and _).mpr hempty)
      rw [hbit] at hpoll
      exact hpoll
    · exact hpass.trans (ih h rfl hrest hready)

/-- A wait and a write for each byte -/
theorem reach_putAll {polls : Nat} : ∀ {bytes : List UInt8} {c c' : Com} {m : Log},
    putAll e polls bytes c = some c' → m.uart = c.uart → m.writers m.active = ⟨bytes, false⟩ →
      ∃ written, Reach m { m with
        uart := c'.uart
        writers := Function.update m.writers m.active ⟨[], false⟩
        written } := by
  intro bytes
  induction bytes with
  | nil =>
    intro c c' m h huart hwriter
    obtain rfl := Option.some.inj h
    refine ⟨m.written, ?_⟩
    rw [← hwriter, Function.update_eq_self, ← huart]
    exact .start
  | cons b bytes ih =>
    intro c c' m h huart hwriter
    obtain ⟨c₁, hwait, hrest⟩ := Option.bind_eq_some_iff.mp h
    have hready := reach_waitEmpty hwait huart (by rw [hwriter]; exact List.cons_ne_nil _ _) (by rw [hwriter])
    rw [hwriter] at hready
    have hpass := hready.trans (reach_pass (e := e) (c := c₁) rfl)
    have huart' : (outb e com1Port b c₁).uart = (pass e c₁).uart.write 0 b := by
      rw [outb, show com1Port - com1Port = 0 from rfl]
    have hwrite : Reach m { m with
        uart := (outb e com1Port b c₁).uart
        writers := Function.update m.writers m.active ⟨bytes, false⟩
        written := m.written ++ [(m.active, b)] } := by
      have hstep := Step.write { m with
        uart := (pass e c₁).uart
        writers := Function.update m.writers m.active ⟨b :: bytes, true⟩ } b bytes (Function.update_self _ _ _)
      rw [huart', ← Function.update_idem ⟨b :: bytes, true⟩ (f := m.writers)]
      exact .step hpass hstep
    obtain ⟨written, hlast⟩ := ih (m := { m with
        uart := (outb e com1Port b c₁).uart
        writers := Function.update m.writers m.active ⟨bytes, false⟩
        written := m.written ++ [(m.active, b)] }) hrest rfl (Function.update_self _ _ _)
    refine ⟨written, hwrite.trans ?_⟩
    have hback : Function.update (Function.update m.writers m.active ⟨bytes, false⟩) m.active ⟨[], false⟩
        = Function.update m.writers m.active ⟨[], false⟩ := Function.update_idem _ _ _
    rw [← hback]
    exact hlast

/-- **`serial_puts` with nothing between its accesses is a run of these steps.** -/
theorem reach_serialPuts {polls : Nat} {str : List UInt8} {c c' : Com} {m : Log} (hconf : Configured c.uart)
    (hinit : c.serialInitialized = true) (h : serialPuts e polls str c = some c') (huart : m.uart = c.uart)
    (hwriter : m.writers m.active = ⟨[], false⟩) : ∃ written, Reach m { m with
      uart := c'.uart
      written
      printed := Function.update m.printed m.active (m.printed m.active ++ str) } := by
  rw [serialPuts_eq polls str hconf hinit] at h
  obtain ⟨written, hput⟩ := reach_putAll (m := { m with
    writers := Function.update m.writers m.active ⟨Serial.serialPuts str, false⟩
    printed := Function.update m.printed m.active (m.printed m.active ++ str) }) h huart (Function.update_self _ _ _)
  have hprint := Reach.step .start (Step.print m str hwriter)
  have hback : Function.update (Function.update m.writers m.active ⟨Serial.serialPuts str, false⟩) m.active ⟨[], false⟩
      = m.writers := by
    rw [Function.update_idem, ← hwriter, Function.update_eq_self]
  refine ⟨written, ?_⟩
  rw [← hback]
  exact hprint.trans hput

/-- **No byte of the log is lost to an interrupt.** From `serial_init` on, whatever the chip was doing before, in every
interleaving of the chip, the main loop and the handlers that interrupt it, both of them printing: no byte finds the
transmitter full, which never holds more than two; all bytes written are on the line or in the transmitter, in the
order of the writes; and those of each party are what it printed, in order, up to the rest of its running print. -/
theorem serial_interleaved (e : Wire) (c : Com) (m : Log) (h : Reach (Log.start (serialInit e c).2.uart) m) :
    m.uart.lost = c.uart.lost ∧ m.uart.transmit.length ≤ 2 ∧
    m.uart.sent = (serialInit e c).2.uart.sent ++ m.written.map Prod.snd ∧
    ∀ p, m.writtenBy p ++ (m.writers p).rest = Serial.serialPuts (m.printed p) := by
  obtain ⟨-, hstarted⟩ := started_serialInit e c
  have ho := h.orderly hstarted.configured hstarted.transmit
  exact ⟨ho.lost.trans hstarted.lost, ho.length, ho.sent, ho.bytes⟩

/-- A handler prints between the poll and the write of the main loop: the main loop's byte is second in the FIFO. -/
theorem serial_interleaved_second : ∃ m : Log,
    m.written = [(.handler, 98), (.main, 97)] ∧ m.uart.transmit = [98, 97] ∧
    m.uart.lost = strangeCom.uart.lost ∧ m.uart.transmit.length ≤ 2 ∧
    m.uart.sent = (serialInit steadyWire strangeCom).2.uart.sent ++ m.written.map Prod.snd ∧
    ∀ p, m.writtenBy p ++ (m.writers p).rest = Serial.serialPuts (m.printed p) := by
  have hprint := Reach.step .start (.print (Log.start (serialInit steadyWire strangeCom).2.uart) [97] rfl)
  have hpoll := Reach.step hprint (.poll _ (by decide +kernel) (by decide +kernel))
  have henter := Reach.step hpoll (.interrupt _ rfl)
  have hprint' := Reach.step henter (.print _ [98] (by decide +kernel))
  have hpoll' := Reach.step hprint' (.poll _ (by decide +kernel) (by decide +kernel))
  have hwrite' := Reach.step hpoll' (.write _ 98 [] (by decide +kernel))
  have hiret := Reach.step hwrite' (.iret _ rfl (by decide +kernel))
  have hwrite := Reach.step hiret (.write _ 97 [] (by decide +kernel))
  exact ⟨_, by decide +kernel, by decide +kernel, serial_interleaved steadyWire strangeCom _ hwrite⟩

end MinOS.Serial.Ports
