/-
# MinOS.Interrupt.Timer — the periodic timer of `kernel/apic.c`.

`apic_timer_init` measures the bus clock against an interval of the PIT and loads the local APIC's timer with the
number of counts between two interrupts. Here it runs against the timer of `MinOS.Lib.ApicTimer`: before every
access to a device any number of counts may pass, and the PIT's output comes when it comes.

If it returns 0, the timer asks for an interrupt every `initial` counts from the moment it was loaded, unless it ran
out in the gap between its last two writes: the first of them starts it in one-shot mode (`apic_timer_init_rate`).
`timer_irq` then counts these interrupts, but for those that come while the one before is still waiting
(`timer_counts`). The line on the serial console is left out of `apic_timer_init`.
-/
import MinOS.Interrupt.Pic
import MinOS.Lib.ApicTimer

namespace MinOS.Interrupt

open Pic8259 ApicTimer

/-! ## The machine -/

/-- What the kernel does not decide: the counts that pass before the access with that number, what port 0x61 reads
at it, and what `cpuid` answers -/
structure Surroundings where
  counts : Nat → Nat
  control : Nat → UInt8
  maxLeaf : UInt32
  featuresC : UInt32
  featuresD : UInt32

/-- The devices, the statics `lapic` (0 is NULL), `ticks` and `tick_hz`, and what has happened: the accesses and
counts so far, the count at which the timer was loaded, the one at which its entry was written, the counts between
the last load and the last look at the timer, and the port writes -/
structure TimerState where
  apic : Lapic
  pic : Pair
  apicBase : UInt64
  lapic : UInt64
  ticks : UInt64
  tickHz : UInt32
  accesses : Nat
  time : Nat
  loaded : Nat
  entered : Nat
  measured : Nat
  ports : List (UInt16 × UInt8)

section Code

variable (e : Surroundings)

/-- The counts that pass before an access -/
def pass (s : TimerState) : TimerState :=
  { s with
    apic := s.apic.clocks (e.counts s.accesses)
    time := s.time + e.counts s.accesses
    accesses := s.accesses + 1 }

/-- `inb(PIT_CONTROL)` -/
def readControl (s : TimerState) : UInt8 × TimerState := (e.control s.accesses, pass e s)

/-- `outb` -/
def timerOutb (port : UInt16) (value : UInt8) (s : TimerState) : TimerState :=
  { pass e s with ports := s.ports ++ [(port, value)] }

/-- `lapic_read` -/
def lapicRead (reg : UInt32) (s : TimerState) : UInt32 × TimerState :=
  let s := pass e s
  (s.apic.read reg, if reg = 0x390 then { s with measured := s.time - s.loaded } else s)

/-- `lapic_write`, with the read that orders it -/
def lapicWrite (reg value : UInt32) (s : TimerState) : TimerState :=
  let s := pass e s
  pass e { s with
    apic := s.apic.write reg value
    loaded := if reg = 0x380 then s.time else s.loaded
    entered := if reg = 0x320 then s.time else s.entered }

/-- `while (!(inb(PIT_CONTROL) & 0x20U) && --guard != 0)`, and the `guard` it leaves -/
def waitGate : (guard : Nat) → TimerState → Nat × TimerState
  | 0, s => (0, s)
  | guard + 1, s =>
    let (control, s) := readControl e s
    if control &&& 0x20 ≠ 0 then (guard + 1, s) else waitGate guard s

/-- `pit_count` -/
def pitCount : UInt16 := 11932

/-- `guard` -/
@[irreducible] def gateGuard : Nat := 20000000

/-- `calibrate_apic` -/
def calibrateApic (s : TimerState) : UInt32 × TimerState :=
  let (control, s) := readControl e s
  let s := lapicWrite e 0x380 0xFFFFFFFF s
  let s := timerOutb e 0x43 0xB0 s
  let s := timerOutb e 0x42 pitCount.toUInt8 s
  let s := timerOutb e 0x42 (pitCount >>> 8).toUInt8 s
  let s := timerOutb e 0x61 (control ||| 1) s
  let (guard, s) := waitGate e gateGuard s
  let (current, s) := lapicRead e 0x390 s
  let elapsed := 0xFFFFFFFF - current
  let s := timerOutb e 0x61 control s
  if guard = 0 ∨ elapsed < 1000 then (0, s) else (elapsed, s)

/-- `initial`: the counts between two interrupts -/
def initialCount (calibrated frequency : UInt32) : UInt32 :=
  let initial := (calibrated.toUInt64 * 100 / frequency.toUInt64).toUInt32
  if initial = 0 then 1 else initial

/-- `if (!frequency) frequency = 100;` -/
def frequencyOf (frequency : UInt32) : UInt32 := if frequency = 0 then 100 else frequency

/-- From the calibration on -/
def startTimer (frequency : UInt32) (s : TimerState) : Int × TimerState :=
  let (calibrated, s) := calibrateApic e s
  if calibrated = 0 then (-1, s)
  else
    let s := { s with tickHz := frequencyOf frequency, ticks := 0 }
    let s := lapicWrite e 0x380 (initialCount calibrated (frequencyOf frequency)) s
    let s := lapicWrite e 0x320 (32 ||| 0x20000) s
    (0, s)

/-- `if (!(base & APIC_BASE_ENABLE)) wrmsr(APIC_BASE_MSR, base | APIC_BASE_ENABLE);` -/
def enableApic (s : TimerState) : TimerState :=
  if s.apicBase &&& 0x800 = 0 then { s with apicBase := s.apicBase ||| 0x800 } else s

/-- Between the checks and the calibration: `lapic`, the legacy controllers, the APIC on, the timer masked -/
def prepareTimer (s : TimerState) : TimerState :=
  let s := { s with lapic := s.apicBase &&& 0xFFFFFFFFFFFFF000 }
  let s := { pass e s with pic := picMaskAll s.pic }
  let (svr, s) := lapicRead e 0x0F0 s
  let s := lapicWrite e 0x0F0 ((svr &&& 0xFF) ||| 0x100) s
  let s := lapicWrite e 0x3E0 0x3 s
  lapicWrite e 0x320 (32 ||| 0x10000) s

/-- `apic_timer_init` -/
def apicTimerInit (frequency : UInt32) (s : TimerState) : Int × TimerState :=
  if e.maxLeaf < 1 then (-1, s)
  else if e.featuresD &&& 0x200 = 0 ∨ e.featuresC &&& 0x200000 ≠ 0 then (-1, s)
  else if (enableApic s).apicBase &&& 0x400 ≠ 0 then (-1, enableApic s)
  else startTimer e frequency (prepareTimer e (enableApic s))

end Code

/-! ## Calibration -/

section Calibration

variable {e : Surroundings}

/-- The timer is masked and counts down from `v` since it was loaded. -/
structure Counting (v : UInt32) (s : TimerState) : Prop where
  closed : s.apic.open? = false
  oneShot : s.apic.periodic? = false
  loaded : s.loaded ≤ s.time
  current : s.apic.current.toNat = v.toNat - (s.time - s.loaded)

theorem Counting.pass {v : UInt32} {s : TimerState} (h : Counting v s) : Counting v (pass e s) := by
  obtain ⟨hclosed, honeShot, hloaded, hcurrent⟩ := h
  have hbound := s.apic.current.toNat_lt
  unfold Interrupt.pass
  rw [Lapic.clocks_masked hclosed honeShot]
  refine ⟨hclosed, honeShot, ?_, ?_⟩
  · dsimp only
    omega
  · dsimp only
    rw [UInt32.toNat_ofNat_of_lt' (show s.apic.current.toNat - e.counts s.accesses < 2 ^ 32 by omega), hcurrent]
    omega

theorem Counting.outb {v : UInt32} {s : TimerState} (h : Counting v s) (port : UInt16) (value : UInt8) :
    Counting v (timerOutb e port value s) := by
  obtain ⟨hclosed, honeShot, hloaded, hcurrent⟩ := h.pass (e := e)
  exact ⟨hclosed, honeShot, hloaded, hcurrent⟩

/-- What a stretch of accesses to other devices leaves as it was -/
structure Passes (s s' : TimerState) : Prop where
  setup : Lapic.SameSetup s.apic s'.apic
  loaded : s'.loaded = s.loaded
  counting : ∀ v, Counting v s → Counting v s'

theorem Passes.trans {s s' s'' : TimerState} (h : Passes s s') (h' : Passes s' s'') : Passes s s'' :=
  ⟨h.setup.trans h'.setup, h'.loaded.trans h.loaded, fun v hs => h'.counting v (h.counting v hs)⟩

theorem passes_pass (s : TimerState) : Passes s (pass e s) :=
  ⟨Lapic.sameSetup_clocks _ _, rfl, fun _ => Counting.pass⟩

theorem passes_outb (port : UInt16) (value : UInt8) (s : TimerState) : Passes s (timerOutb e port value s) :=
  ⟨Lapic.sameSetup_clocks _ _, rfl, fun _ h => h.outb port value⟩

theorem passes_waitGate (guard : Nat) (s : TimerState) : Passes s (waitGate e guard s).2 := by
  induction guard generalizing s with
  | zero => exact ⟨⟨rfl, rfl, rfl, rfl, rfl⟩, rfl, fun _ => id⟩
  | succ guard ih =>
    rw [waitGate]
    dsimp only [readControl]
    split
    · exact passes_pass s
    · exact (passes_pass s).trans (ih _)

/-- Loading a masked timer starts the count. -/
theorem counting_load {s : TimerState} (hclosed : s.apic.open? = false) (honeShot : s.apic.periodic? = false)
    (v : UInt32) : Counting v (lapicWrite e 0x380 v s) := by
  have hsame : Lapic.SameSetup s.apic (pass e s).apic := (passes_pass s).setup
  have hopen : (pass e s).apic.open? = false := hsame.open?_eq.trans hclosed
  have hmode : (pass e s).apic.periodic? = false := hsame.periodic?_eq.trans honeShot
  exact Counting.pass ⟨hopen, hmode, le_refl _, by simp [Lapic.write]⟩

/-- The state in which the loop of `calibrate_apic` ends, and `guard` -/
def gated (e : Surroundings) (s : TimerState) : Nat × TimerState :=
  waitGate e gateGuard
    (timerOutb e 0x61 (e.control s.accesses ||| 1)
      (timerOutb e 0x42 (pitCount >>> 8).toUInt8
        (timerOutb e 0x42 pitCount.toUInt8
          (timerOutb e 0x43 0xB0 (lapicWrite e 0x380 0xFFFFFFFF (pass e s))))))

theorem passes_gated (s : TimerState) :
    Passes (lapicWrite e 0x380 0xFFFFFFFF (pass e s)) (gated e s).2 :=
  (((passes_outb _ _ _).trans (passes_outb _ _ _)).trans
    ((passes_outb _ _ _).trans (passes_outb _ _ _))).trans (passes_waitGate _ _)

/-- The counts since the timer was loaded, as `calibrate_apic` reads them -/
def elapsedCounts (e : Surroundings) (s : TimerState) : UInt32 :=
  0xFFFFFFFF - (pass e (gated e s).2).apic.current

/-- The state that `calibrate_apic` leaves -/
def calibrated (e : Surroundings) (s : TimerState) : TimerState :=
  timerOutb e 0x61 (e.control s.accesses) (lapicRead e 0x390 (gated e s).2).2

theorem calibrateApic_eq (s : TimerState) : calibrateApic e s
    = (if (gated e s).1 = 0 ∨ elapsedCounts e s < 1000 then 0 else elapsedCounts e s, calibrated e s) := by
  have hread : ∀ s' : TimerState, (lapicRead e 0x390 s').1 = (pass e s').apic.current := fun _ => rfl
  rw [calibrateApic]
  dsimp only [readControl]
  rw [hread]
  show (if (gated e s).1 = 0 ∨ elapsedCounts e s < 1000 then (0, calibrated e s)
    else (elapsedCounts e s, calibrated e s)) = _
  split <;> rfl

section Masked

variable {s : TimerState} (hclosed : s.apic.open? = false) (honeShot : s.apic.periodic? = false)
include hclosed honeShot

/-- **`calibrate_apic` measures** the counts between the load and the look, as far as they fit. -/
theorem toNat_elapsedCounts : (elapsedCounts e s).toNat = min (calibrated e s).measured 0xFFFFFFFF := by
  have hsame : Lapic.SameSetup s.apic (pass e s).apic := (passes_pass s).setup
  have hload := counting_load (e := e) (hsame.open?_eq.trans hclosed) (hsame.periodic?_eq.trans honeShot)
    0xFFFFFFFF
  have hcount : Counting 0xFFFFFFFF (pass e (gated e s).2) := ((passes_gated s).counting _ hload).pass
  have hle : (pass e (gated e s).2).apic.current ≤ 0xFFFFFFFF := by
    rw [UInt32.le_iff_toNat_le, hcount.current]
    exact Nat.sub_le _ _
  have hall : (0xFFFFFFFF : UInt32).toNat = 0xFFFFFFFF := rfl
  rw [elapsedCounts, UInt32.toNat_sub_of_le _ _ hle, hcount.current, hall]
  show 0xFFFFFFFF - (0xFFFFFFFF - ((pass e (gated e s).2).time - (pass e (gated e s).2).loaded))
    = min ((pass e (gated e s).2).time - (pass e (gated e s).2).loaded) 0xFFFFFFFF
  omega

end Masked

/-- Calibration changes none of the registers but the counts. -/
theorem calibrated_apic (s : TimerState) : (calibrated e s).apic.svr = s.apic.svr ∧
    (calibrated e s).apic.divide = s.apic.divide ∧ (calibrated e s).apic.lvt = s.apic.lvt := by
  have hbefore : Lapic.SameSetup s.apic (pass e s).apic := (passes_pass s).setup
  have hbetween : Lapic.SameSetup (pass e s).apic (pass e (pass e s)).apic := (passes_pass _).setup
  have hload : Lapic.SameSetup ((pass e (pass e s)).apic.write 0x380 0xFFFFFFFF)
      (lapicWrite e 0x380 0xFFFFFFFF (pass e s)).apic := Lapic.sameSetup_clocks _ _
  have hafter : Lapic.SameSetup (gated e s).2.apic (calibrated e s).apic :=
    (passes_pass (e := e) _).setup.trans (Lapic.sameSetup_clocks _ _)
  have hrest := (passes_gated (e := e) s).setup.trans hafter
  refine ⟨?_, ?_, ?_⟩
  · exact (hrest.svr.trans hload.svr).trans (hbetween.svr.trans hbefore.svr)
  · exact (hrest.divide.trans hload.divide).trans (hbetween.divide.trans hbefore.divide)
  · exact (hrest.lvt.trans hload.lvt).trans (hbetween.lvt.trans hbefore.lvt)

end Calibration

/-! ## The start -/

section Start

variable {e : Surroundings}

/-- The APIC is on and the timer masked. -/
structure Prepared (s : TimerState) : Prop where
  svr : s.apic.svr &&& 0x100 ≠ 0
  divide : s.apic.divide = 3
  lvt : s.apic.lvt = 32 ||| 0x10000

theorem Prepared.closed {s : TimerState} (h : Prepared s) : s.apic.open? = false := by
  rw [Lapic.open?, h.lvt, show ((32 ||| 0x10000 : UInt32) &&& 0x10000 == 0) = false by decide, Bool.and_false]

theorem Prepared.oneShot {s : TimerState} (h : Prepared s) : s.apic.periodic? = false := by
  rw [Lapic.periodic?, h.lvt]
  decide

/-- **The last two writes** of `apic_timer_init`: the load, and the entry in periodic mode. -/
theorem periodic_of_start {s : TimerState} (h : Prepared s) (v : UInt32) {s' : TimerState}
    (hs' : s' = lapicWrite e 0x320 (32 ||| 0x20000) (lapicWrite e 0x380 v s)) :
    s'.loaded ≤ s'.time ∧ s'.apic.initial = v ∧ s'.apic.lvt = 32 ||| 0x20000 ∧ s'.apic.divide = 3 ∧
    (s'.entered - s'.loaded < v.toNat →
      s'.apic.Periodic ∧ s'.apic.phase = (s'.time - s'.loaded) % v.toNat) ∧
    (v.toNat ≤ s'.entered - s'.loaded → s'.apic.current = 0) := by
  -- the state before the write of the entry, and the one after it
  obtain ⟨s₁, hs₁⟩ : ∃ s₁, s₁ = pass e (lapicWrite e 0x380 v s) := ⟨_, rfl⟩
  obtain ⟨a, ha⟩ : ∃ a : Lapic, a = { s₁.apic with lvt := 32 ||| 0x20000 } := ⟨_, rfl⟩
  obtain ⟨k, hk⟩ : ∃ k, k = e.counts s₁.accesses := ⟨_, rfl⟩
  have happ : s'.apic = a.clocks k := by rw [hs', ha, hk, hs₁]; rfl
  have hloaded : s'.loaded = s₁.loaded := by rw [hs', hs₁]; rfl
  have hentered : s'.entered = s₁.time := by rw [hs', hs₁]; rfl
  have htime : s'.time = s₁.time + k := by rw [hs', hk, hs₁]; rfl
  have hcount : Counting v s₁ := hs₁ ▸ (counting_load h.closed h.oneShot v).pass
  have hload : Lapic.SameSetup ((pass e s).apic.write 0x380 v) s₁.apic := by
    rw [hs₁]
    exact (Lapic.sameSetup_clocks _ _).trans (Lapic.sameSetup_clocks _ _)
  have hbefore : Lapic.SameSetup s.apic (pass e s).apic := (passes_pass s).setup
  have hinitial : a.initial = v := by
    rw [ha]
    exact hload.initial
  have hlvt' : a.lvt = 32 ||| 0x20000 := by rw [ha]
  have hopen : a.open? = true := by
    have hsvr' : a.svr = s.apic.svr := by
      rw [ha]
      exact hload.svr.trans hbefore.svr
    rw [Lapic.open?, hsvr', hlvt', show ((32 ||| 0x20000 : UInt32) &&& 0x10000 == 0) = true by decide, Bool.and_true]
    simpa using h.svr
  have hcurrent : a.current.toNat = v.toNat - (s₁.time - s₁.loaded) := by
    rw [ha]
    exact hcount.current
  have hsame := Lapic.sameSetup_clocks k a
  rw [hentered, hloaded, htime, happ]
  refine ⟨hcount.loaded.trans (Nat.le_add_right _ _), hsame.initial.trans hinitial, ?_, ?_, fun hgap => ?_,
    fun hgap => ?_⟩
  · exact hsame.lvt.trans hlvt'
  · rw [hsame.divide, ha]
    exact (hload.divide.trans hbefore.divide).trans h.divide
  · have hperiodic : a.Periodic := ⟨hopen, by rw [Lapic.periodic?, hlvt']; decide, by omega, by rw [hinitial]; omega⟩
    obtain ⟨hp, hphase, -⟩ := hperiodic.clocks k
    refine ⟨hp, ?_⟩
    have hloadedLe := hcount.loaded
    rw [hphase, hinitial, Lapic.phase, hinitial, hcurrent]
    congr 1
    omega
  · have hzero : a.current = 0 := UInt32.toNat_inj.mp (by rw [hcurrent]; exact Nat.sub_eq_zero_of_le hgap)
    rw [Lapic.clocks_of_zero hzero, hzero]

/-- The statics are set between the calibration and the start. -/
def withStatics (frequency : UInt32) (s : TimerState) : TimerState := { s with tickHz := frequency, ticks := 0 }

theorem lapicWrite_apic (reg value : UInt32) (s : TimerState) :
    Lapic.SameSetup ((pass e s).apic.write reg value) (lapicWrite e reg value s).apic :=
  Lapic.sameSetup_clocks _ _

theorem svr_enabled (svr : UInt32) : ((svr &&& 0xFF) ||| 0x100) &&& 0x100 ≠ 0 := by
  intro h
  have hbit := congrArg (fun u : UInt32 => u.toNat.testBit 8) h
  simp only [UInt32.toNat_and, UInt32.toNat_or, Nat.testBit_and, Nat.testBit_or] at hbit
  rw [show (0x100 : UInt32).toNat.testBit 8 = true by decide, Bool.or_true] at hbit
  cases hbit

theorem prepared_prepareTimer (s : TimerState) : Prepared (prepareTimer e s) := by
  unfold prepareTimer
  dsimp only
  generalize lapicRead e 0x0F0 _ = x
  obtain ⟨svr, s₁⟩ := x
  dsimp only
  obtain ⟨s₂, hs₂⟩ : ∃ s₂, s₂ = lapicWrite e 0x0F0 ((svr &&& 0xFF) ||| 0x100) s₁ := ⟨_, rfl⟩
  obtain ⟨s₃, hs₃⟩ : ∃ s₃, s₃ = lapicWrite e 0x3E0 0x3 s₂ := ⟨_, rfl⟩
  have h₁ : Lapic.SameSetup ((pass e s₁).apic.write 0x0F0 ((svr &&& 0xFF) ||| 0x100)) s₂.apic :=
    hs₂ ▸ lapicWrite_apic _ _ s₁
  have h₂ : Lapic.SameSetup s₂.apic (pass e s₂).apic := (passes_pass s₂).setup
  have h₃ : Lapic.SameSetup ((pass e s₂).apic.write 0x3E0 0x3) s₃.apic := hs₃ ▸ lapicWrite_apic _ _ s₂
  have h₄ : Lapic.SameSetup s₃.apic (pass e s₃).apic := (passes_pass s₃).setup
  rw [← hs₂, ← hs₃]
  have h₅ := lapicWrite_apic (e := e) 0x320 (32 ||| 0x10000) s₃
  refine ⟨?_, ?_, h₅.lvt⟩
  · have hsvr := (h₅.svr.trans h₄.svr).trans (h₃.svr.trans (h₂.svr.trans h₁.svr))
    rw [hsvr]
    exact svr_enabled svr
  · exact h₅.divide.trans (h₄.divide.trans h₃.divide)

/-- **An `apic_timer_init` that returns 0** has masked the timer, measured, and started it. -/
theorem apicTimerInit_cases {frequency : UInt32} {s : TimerState} (h : (apicTimerInit e frequency s).1 = 0) :
    ∃ s₀, s₀ = prepareTimer e (enableApic s) ∧ Prepared s₀ ∧ (calibrateApic e s₀).1 ≠ 0 ∧
      (apicTimerInit e frequency s).2
        = lapicWrite e 0x320 (32 ||| 0x20000)
          (lapicWrite e 0x380 (initialCount (calibrateApic e s₀).1 (frequencyOf frequency))
            (withStatics (frequencyOf frequency) (calibrated e s₀))) := by
  unfold apicTimerInit at h ⊢
  split at h
  · cases h
  rename_i hleaf
  split at h
  · cases h
  rename_i hfeatures
  split at h
  · cases h
  rename_i hbase
  rw [if_neg hleaf, if_neg hfeatures, if_neg hbase]
  refine ⟨_, rfl, prepared_prepareTimer (e := e) (enableApic s), ?_⟩
  obtain ⟨c, hc⟩ : ∃ c, calibrateApic e (prepareTimer e (enableApic s))
      = (c, calibrated e (prepareTimer e (enableApic s))) := ⟨_, calibrateApic_eq _⟩
  unfold startTimer at h ⊢
  rw [hc] at h ⊢
  dsimp only at h ⊢
  split at h
  · cases h
  rename_i hne
  rw [if_neg hne]
  exact ⟨hne, rfl⟩

/-- No write of the kernel but `apic_eoi` touches the in-service bit. -/
theorem lapicWrite_inService {reg : UInt32} (h : reg ≠ 0x0B0) (value : UInt32) (s : TimerState) :
    (lapicWrite e reg value s).apic.inService = s.apic.inService := by
  have hpass : Lapic.SameSetup s.apic (pass e s).apic := (passes_pass s).setup
  rw [(lapicWrite_apic reg value s).inService, Lapic.write_inService h, hpass.inService]

theorem prepareTimer_inService (s : TimerState) : (prepareTimer e s).apic.inService = s.apic.inService := by
  rw [prepareTimer]
  dsimp only
  rw [lapicWrite_inService (by decide), lapicWrite_inService (by decide), lapicWrite_inService (by decide)]
  exact ((Lapic.sameSetup_clocks _ _).trans (Lapic.sameSetup_clocks _ _)).inService

theorem calibrated_inService (s : TimerState) : (calibrated e s).apic.inService = s.apic.inService := by
  have hbefore : Lapic.SameSetup s.apic (pass e s).apic := (passes_pass s).setup
  have hafter : Lapic.SameSetup (gated e s).2.apic (calibrated e s).apic :=
    (passes_pass (e := e) _).setup.trans (Lapic.sameSetup_clocks _ _)
  rw [hafter.inService, (passes_gated s).setup.inService, lapicWrite_inService (by decide), hbefore.inService]

/-- `apic_timer_init` ends no interrupt and begins none. -/
theorem apicTimerInit_inService {frequency : UInt32} {s : TimerState} (h : (apicTimerInit e frequency s).1 = 0) :
    (apicTimerInit e frequency s).2.apic.inService = s.apic.inService := by
  obtain ⟨s₀, rfl, -, -, he⟩ := apicTimerInit_cases h
  rw [he, lapicWrite_inService (by decide), lapicWrite_inService (by decide)]
  have henable : (enableApic s).apic = s.apic := by
    unfold enableApic
    split <;> rfl
  show (calibrated e (prepareTimer e (enableApic s))).apic.inService = _
  rw [calibrated_inService, prepareTimer_inService, henable]

/-! ## The rate -/

/-- Nothing is cut off, and the quotient is not 0. -/
theorem toNat_initialCount {calibrated frequency : UInt32} (hf : 100 ≤ frequency.toNat)
    (hle : frequency.toNat ≤ 100 * calibrated.toNat) :
    (initialCount calibrated frequency).toNat = 100 * calibrated.toNat / frequency.toNat := by
  have hbound := calibrated.toNat_lt
  have hproduct : (calibrated.toUInt64 * 100).toNat = 100 * calibrated.toNat := by
    rw [UInt64.toNat_mul, UInt32.toNat_toUInt64, show (100 : UInt64).toNat = 100 from rfl, Nat.mul_comm]
    exact Nat.mod_eq_of_lt (by omega)
  have hquotient : (calibrated.toUInt64 * 100 / frequency.toUInt64).toNat
      = 100 * calibrated.toNat / frequency.toNat := by
    rw [UInt64.toNat_div, hproduct, UInt32.toNat_toUInt64]
  have hfits : 100 * calibrated.toNat / frequency.toNat < 2 ^ 32 := by
    have := Nat.div_le_div_left hf (by omega : 0 < 100) (a := 100 * calibrated.toNat)
    rw [Nat.mul_div_cancel_left _ (by omega)] at this
    omega
  have hword : (calibrated.toUInt64 * 100 / frequency.toUInt64).toUInt32.toNat
      = 100 * calibrated.toNat / frequency.toNat := by
    rw [UInt64.toNat_toUInt32, hquotient]
    exact Nat.mod_eq_of_lt hfits
  unfold initialCount
  dsimp only
  split
  · rename_i hzero
    rw [hzero] at hword
    have hpos : 0 < 100 * calibrated.toNat / frequency.toNat := Nat.div_pos hle (by omega)
    rw [← hword] at hpos
    exact absurd hpos (by decide)
  · exact hword

end Start

/-- At 100 Hz the period is the measured interval of 10 ms. -/
theorem toNat_initialCount_hundred {measured : UInt32} (hge : 1000 ≤ measured.toNat) :
    (initialCount measured (frequencyOf 100)).toNat = measured.toNat := by
  have hhundred : (100 : UInt32).toNat = 100 := rfl
  rw [show frequencyOf 100 = 100 from rfl, toNat_initialCount (le_refl _) (by rw [hhundred]; omega), hhundred,
    Nat.mul_div_cancel_left _ (by omega)]

/-- What a successful `apic_timer_init(frequency)` leaves, with the counts it measured in the PIT's interval -/
structure Started (frequency measured : UInt32) (s : TimerState) : Prop where
  /-- at least 1000 counts, and all of them if they fit in 32 bits -/
  measured_eq : measured.toNat = min s.measured 0xFFFFFFFF
  measured_ge : 1000 ≤ measured.toNat
  ticks : s.ticks = 0
  tickHz : s.tickHz = frequencyOf frequency
  divide : s.apic.divide = 3
  lvt : s.apic.lvt = 32 ||| 0x20000
  initial : s.apic.initial = initialCount measured (frequencyOf frequency)
  loaded : s.loaded ≤ s.time
  /-- the timer did not run out before it was told to start again -/
  running : s.entered - s.loaded < s.apic.initial.toNat →
    s.apic.Periodic ∧ s.apic.phase = (s.time - s.loaded) % s.apic.initial.toNat
  stuck : s.apic.initial.toNat ≤ s.entered - s.loaded → s.apic.current = 0

theorem started_of_init {e : Surroundings} {frequency : UInt32} {s : TimerState}
    (h : (apicTimerInit e frequency s).1 = 0) :
    ∃ measured, Started frequency measured (apicTimerInit e frequency s).2 := by
  obtain ⟨s₀, -, hs₀, hne, hs'⟩ := apicTimerInit_cases h
  obtain ⟨s', he⟩ : ∃ s', s' = (apicTimerInit e frequency s).2 := ⟨_, rfl⟩
  rw [← he] at hs' ⊢
  have helapsed := toNat_elapsedCounts (e := e) hs₀.closed hs₀.oneShot
  obtain ⟨hsvr, hdivide, hlvt⟩ := calibrated_apic (e := e) s₀
  have hcalibrated : Prepared (withStatics (frequencyOf frequency) (calibrated e s₀)) := by
    refine ⟨?_, hdivide.trans hs₀.divide, hlvt.trans hs₀.lvt⟩
    show (calibrated e s₀).apic.svr &&& 0x100 ≠ 0
    rw [hsvr]
    exact hs₀.svr
  have hfst : (calibrateApic e s₀).1 = elapsedCounts e s₀ ∧ ¬ elapsedCounts e s₀ < 1000 := by
    rw [calibrateApic_eq] at hne ⊢
    dsimp only at hne ⊢
    split at hne
    · exact absurd rfl hne
    · rename_i hboth
      rw [if_neg hboth]
      exact ⟨rfl, fun hlt => hboth (Or.inr hlt)⟩
  obtain ⟨hloaded, hinitial, hlvtEnd, hdivideEnd, hrunning, hstuck⟩ := periodic_of_start hcalibrated
    (initialCount (calibrateApic e s₀).1 (frequencyOf frequency)) hs'
  rw [hfst.1] at hinitial hrunning hstuck
  have hmeasured : s'.measured = (calibrated e s₀).measured := by rw [hs']; rfl
  refine ⟨elapsedCounts e s₀, ?_, ?_, ?_, ?_, hdivideEnd, hlvtEnd, hinitial, hloaded, ?_, ?_⟩
  · rw [helapsed, hmeasured]
  · exact UInt32.le_iff_toNat_le.mp (UInt32.not_lt.mp hfst.2)
  · rw [hs']
    rfl
  · rw [hs']
    rfl
  · rw [hinitial]
    exact hrunning
  · rw [hinitial]
    exact hstuck

/-- A PIT whose output is up at the first look -/
theorem waitGate_of_ready {e : Surroundings} {guard : Nat} (hguard : 0 < guard) {s : TimerState}
    (hready : e.control s.accesses &&& 0x20 ≠ 0) : waitGate e guard s = (guard, pass e s) := by
  obtain ⟨guard, rfl⟩ := Nat.exists_eq_succ_of_ne_zero hguard.ne'
  rw [waitGate]
  dsimp only [readControl]
  rw [if_pos hready]

/-- 200 counts before every access, and the output of the PIT always up -/
def steady : Surroundings := ⟨fun _ => 200, fun _ => 0x20, 1, 0, 0x200⟩

/-- A timer that the firmware left alone -/
def unusedTimer : TimerState where
  apic := ⟨0xFF, 0, 0x10000, 0, 0, false, false, 0, 0⟩
  pic := ⟨⟨.icw3, true, false, 0x70, 0xFF, false, true, 0x12, fun _ => true, fun _ => true⟩,
    ⟨.ready, true, false, 0x70, 0xFF, false, true, 0x12, fun _ => false, fun _ => false⟩⟩
  apicBase := 0xFEE00900
  lapic := 0
  ticks := 0
  tickHz := 0
  accesses := 0
  time := 0
  loaded := 0
  entered := 0
  measured := 0
  ports := []

theorem calibrated_steady (s : TimerState) : (gated steady s).1 ≠ 0 ∧ (calibrated steady s).measured = 1400 := by
  have hguard : 0 < gateGuard := by
    unfold gateGuard
    decide
  have hgated := waitGate_of_ready hguard (e := steady)
    (s := timerOutb steady 0x61 (steady.control s.accesses ||| 1)
      (timerOutb steady 0x42 (pitCount >>> 8).toUInt8
        (timerOutb steady 0x42 pitCount.toUInt8
          (timerOutb steady 0x43 0xB0 (lapicWrite steady 0x380 0xFFFFFFFF (pass steady s))))))
    (by show (0x20 : UInt8) &&& 0x20 ≠ 0; decide)
  rw [calibrated, gated, hgated]
  refine ⟨hguard.ne', ?_⟩
  show (s.time + 200 + 200 + 200 + 200 + 200 + 200 + 200 + 200 + 200) - (s.time + 200 + 200) = 1400
  omega

theorem apicTimerInit_steady : (apicTimerInit steady 100 unusedTimer).1 = 0 := by
  have hprepared := prepared_prepareTimer (e := steady) (enableApic unusedTimer)
  obtain ⟨hgate, hmeasured⟩ := calibrated_steady (prepareTimer steady (enableApic unusedTimer))
  have helapsed := toNat_elapsedCounts (e := steady) hprepared.closed hprepared.oneShot
  rw [hmeasured] at helapsed
  have hnot : ¬ ((gated steady (prepareTimer steady (enableApic unusedTimer))).1 = 0 ∨
      elapsedCounts steady (prepareTimer steady (enableApic unusedTimer)) < 1000) := by
    rintro (h | h)
    · exact hgate h
    · rw [UInt32.lt_iff_toNat_lt, helapsed] at h
      exact absurd h (by decide)
  have hne : elapsedCounts steady (prepareTimer steady (enableApic unusedTimer)) ≠ 0 := by
    intro h
    rw [h] at helapsed
    exact absurd helapsed (by decide)
  rw [apicTimerInit, if_neg (by decide), if_neg (by decide), if_neg (by decide), startTimer, calibrateApic_eq,
    if_neg hnot]
  dsimp only
  rw [if_neg hne]

/-- What the processor does -/
inductive TimerCpu
  /-- interrupts on, no handler -/
  | main
  /-- the handler of another interrupt -/
  | busy
  /-- a stub, on its way to `irq_dispatch` -/
  | entered (vector : UInt8)
  /-- `timer_irq` after `++ticks` -/
  | counted
  /-- after `apic_eoi` -/
  | ended
  /-- before `iretq` -/
  | leaving
  /-- `ticks % 0` -/
  | divideError
  deriving DecidableEq, Repr

/-- An interrupt that was accepted and is not counted yet -/
def TimerCpu.uncounted : TimerCpu → Nat
  | .entered _ => 1
  | _ => 0

/-- The lines of `timer_irq` -/
inductive TimerLine
  | first
  | ticks (ticks : UInt64) (frequency : UInt32)
  deriving DecidableEq, Repr

/-- The timer, the processor, the statics; and the counts so far, the lines printed, and how often `++ticks` ran -/
structure Ticking where
  apic : Lapic
  cpu : TimerCpu
  lapic : UInt64
  ticks : UInt64
  tickHz : UInt32
  time : Nat
  log : List TimerLine
  handled : Nat

/-- What `timer_irq` prints -/
def timerLines (ticks : UInt64) (tickHz : UInt32) : List TimerLine :=
  (if ticks = 1 then [.first] else []) ++ (if ticks % tickHz.toUInt64 = 0 then [.ticks ticks tickHz] else [])

/-- What can happen next -/
inductive TimerStep : Ticking → Ticking → Prop
  | clock (m : Ticking) : TimerStep m { m with apic := m.apic.clock, time := m.time + 1 }
  | accept (m : Ticking) (vector : UInt8) (apic : Lapic) (hcpu : m.cpu = .main)
      (h : m.apic.accept = some (vector, apic)) : TimerStep m { m with apic, cpu := .entered vector }
  | busy (m : Ticking) (hcpu : m.cpu = .main) : TimerStep m { m with cpu := .busy }
  | done (m : Ticking) (hcpu : m.cpu = .busy) : TimerStep m { m with cpu := .main }
  | count (m : Ticking) (hcpu : m.cpu = .entered 32) :
      TimerStep m { m with ticks := m.ticks + 1, handled := m.handled + 1, cpu := .counted }
  | other (m : Ticking) (vector : UInt8) (hcpu : m.cpu = .entered vector) (hvector : vector ≠ 32) :
      TimerStep m { m with cpu := .leaving }
  /-- `apic_eoi` -/
  | eoi (m : Ticking) (hcpu : m.cpu = .counted) :
      TimerStep m { m with apic := if m.lapic ≠ 0 then m.apic.write 0x0B0 0 else m.apic, cpu := .ended }
  | print (m : Ticking) (hcpu : m.cpu = .ended) (hz : m.tickHz ≠ 0) :
      TimerStep m { m with log := m.log ++ timerLines m.ticks m.tickHz, cpu := .leaving }
  | fault (m : Ticking) (hcpu : m.cpu = .ended) (hz : m.tickHz = 0) : TimerStep m { m with cpu := .divideError }
  | iret (m : Ticking) (hcpu : m.cpu = .leaving) : TimerStep m { m with cpu := .main }

/-- After `sti` -/
def Ticking.start (o : TimerState) : Ticking where
  apic := o.apic
  cpu := .main
  lapic := o.lapic
  ticks := o.ticks
  tickHz := o.tickHz
  time := o.time
  log := []
  handled := 0

/-- The states of all interleavings -/
inductive TimerReach (o : TimerState) : Ticking → Prop
  | start : TimerReach o (Ticking.start o)
  | step {m m' : Ticking} (h : TimerReach o m) (hstep : TimerStep m m') : TimerReach o m'

/-- The lines of the ticks `1` to `n` -/
def linesUpTo (tickHz : UInt32) (n : Nat) : List TimerLine :=
  (List.range n).flatMap fun i => timerLines (UInt64.ofNat (i + 1)) tickHz

/-- How many ticks have been printed -/
def Ticking.printed (m : Ticking) : Nat :=
  match m.cpu with
  | .counted | .ended => m.handled - 1
  | _ => m.handled

/-- **The invariant**, for a timer that runs -/
structure Counts (o : TimerState) (m : Ticking) : Prop where
  periodic : m.apic.Periodic
  lvt : m.apic.lvt = 32 ||| 0x20000
  initial : m.apic.initial = o.apic.initial
  loaded : o.loaded ≤ m.time
  phase : m.apic.phase = (m.time - o.loaded) % o.apic.initial.toNat
  fired : m.apic.fired + (o.time - o.loaded) / o.apic.initial.toNat
    = o.apic.fired + (m.time - o.loaded) / o.apic.initial.toNat
  ledger : m.handled + m.cpu.uncounted + m.apic.requested.toNat + m.apic.merged + o.apic.fired
    = m.apic.fired + o.apic.merged + o.apic.requested.toNat
  vector : ∀ vector, m.cpu = .entered vector → vector = 32
  ticks : m.ticks = UInt64.ofNat m.handled
  tickHz : m.tickHz = o.tickHz ∧ o.tickHz ≠ 0
  counted : m.cpu = .counted ∨ m.cpu = .ended → 0 < m.handled
  cpu : m.cpu ≠ .divideError
  log : m.log = linesUpTo m.tickHz m.printed

theorem frequencyOf_ne_zero (frequency : UInt32) : frequencyOf frequency ≠ 0 := by
  unfold frequencyOf
  split
  · decide
  · assumption

theorem counts_start {frequency measured : UInt32} {o : TimerState} (h : Started frequency measured o)
    (hgap : o.entered - o.loaded < o.apic.initial.toNat) : Counts o (Ticking.start o) := by
  obtain ⟨hperiodic, hphase⟩ := h.running hgap
  refine ⟨hperiodic, h.lvt, rfl, h.loaded, hphase, rfl, ?_, nofun, h.ticks, ?_, nofun, nofun, rfl⟩
  · show 0 + 0 + o.apic.requested.toNat + o.apic.merged + o.apic.fired = _
    show _ = o.apic.fired + o.apic.merged + o.apic.requested.toNat
    omega
  · refine ⟨rfl, ?_⟩
    rw [h.tickHz]
    exact frequencyOf_ne_zero frequency

theorem linesUpTo_succ (tickHz : UInt32) (n : Nat) :
    linesUpTo tickHz (n + 1) = linesUpTo tickHz n ++ timerLines (UInt64.ofNat (n + 1)) tickHz := by
  rw [linesUpTo, List.range_succ, List.flatMap_append, linesUpTo]
  simp

/-- **Every step keeps the invariant.** -/
theorem Counts.step {o : TimerState} {m m' : Ticking} (h : Counts o m) (hstep : TimerStep m m') : Counts o m' := by
  obtain ⟨hperiodic, hlvt, hinitial, hloaded, hphase, hfired, hledger, hvector, hticks, hHz, hcounted, hcpu, hlog⟩ := h
  cases hstep with
  | clock =>
    obtain ⟨hp, hphase', hfired'⟩ := hperiodic.clock
    have hsame := Lapic.sameSetup_clock m.apic
    have hpos : 0 < o.apic.initial.toNat := by
      have := hperiodic.pos
      have := hperiodic.le
      rw [← hinitial]
      omega
    have htime : m.time + 1 - o.loaded = m.time - o.loaded + 1 := by omega
    have hcount := m.apic.clock_ledger
    rw [hinitial] at hphase' hfired'
    refine ⟨hp, hsame.lvt.trans hlvt, hsame.initial.trans hinitial, by dsimp only; omega, ?_, ?_, ?_, hvector, hticks,
      hHz, hcounted, hcpu, hlog⟩
    · dsimp only
      rw [hphase', hphase, htime, Nat.mod_add_mod]
    · dsimp only
      rw [hfired', htime, Lapic.succ_div (m.time - o.loaded) hpos, ← hphase]
      omega
    · dsimp only
      omega
  | accept vector apic hmain haccept =>
    have hprinted : m.printed = m.handled := by rw [Ticking.printed, hmain]
    rw [hprinted] at hlog
    rw [hmain] at hledger
    unfold Lapic.accept at haccept
    split at haccept
    · rename_i hboth
      obtain ⟨rfl, rfl⟩ := Prod.mk.inj (Option.some.inj haccept)
      rw [(Bool.and_eq_true_iff.mp hboth).1] at hledger
      refine ⟨⟨hperiodic.opened, hperiodic.periodic, hperiodic.pos, hperiodic.le⟩, hlvt, hinitial, hloaded, hphase,
        hfired, hledger, ?_, hticks, hHz, nofun, nofun, hlog⟩
      intro vector hentered
      rw [← TimerCpu.entered.inj hentered, hlvt]
      decide
    · cases haccept
  | busy hmain =>
    have hprinted : m.printed = m.handled := by rw [Ticking.printed, hmain]
    rw [hprinted] at hlog
    rw [hmain] at hledger
    exact ⟨hperiodic, hlvt, hinitial, hloaded, hphase, hfired, hledger, nofun, hticks, hHz, nofun, nofun, hlog⟩
  | done hbusy =>
    have hprinted : m.printed = m.handled := by rw [Ticking.printed, hbusy]
    rw [hprinted] at hlog
    rw [hbusy] at hledger
    exact ⟨hperiodic, hlvt, hinitial, hloaded, hphase, hfired, hledger, nofun, hticks, hHz, nofun, nofun, hlog⟩
  | count hentered =>
    have hprinted : m.printed = m.handled := by rw [Ticking.printed, hentered]
    rw [hprinted] at hlog
    rw [hentered] at hledger
    refine ⟨hperiodic, hlvt, hinitial, hloaded, hphase, hfired, ?_, nofun, ?_, hHz, fun _ => Nat.succ_pos _, nofun,
      hlog⟩
    · show m.handled + 1 + 0 + _ + _ + _ = _
      rw [← hledger]
      rfl
    · dsimp only
      rw [hticks, UInt64.ofNat_add]
      rfl
  | other vector hentered hvector' => exact absurd (hvector vector hentered) hvector'
  | eoi hc =>
    have hprinted : m.printed = m.handled - 1 := by rw [Ticking.printed, hc]
    rw [hprinted] at hlog
    rw [hc] at hledger
    have hapic : (if m.lapic ≠ 0 then m.apic.write 0x0B0 0 else m.apic)
        = { m.apic with inService := if m.lapic ≠ 0 then false else m.apic.inService } := by
      split <;> rfl
    rw [hapic]
    exact ⟨⟨hperiodic.opened, hperiodic.periodic, hperiodic.pos, hperiodic.le⟩, hlvt, hinitial, hloaded, hphase,
      hfired, hledger, nofun, hticks, hHz, fun _ => hcounted (Or.inl hc), nofun, hlog⟩
  | print he hz =>
    have hprinted : m.printed = m.handled - 1 := by rw [Ticking.printed, he]
    rw [hprinted] at hlog
    rw [he] at hledger
    refine ⟨hperiodic, hlvt, hinitial, hloaded, hphase, hfired, hledger, nofun, hticks, hHz, nofun, nofun, ?_⟩
    obtain ⟨n, hn⟩ := Nat.exists_eq_succ_of_ne_zero (hcounted (Or.inr he)).ne'
    show m.log ++ timerLines m.ticks m.tickHz = linesUpTo m.tickHz m.handled
    rw [hlog, hticks, hn, Nat.succ_eq_add_one, Nat.add_sub_cancel, linesUpTo_succ]
  | fault he hz => exact absurd (hHz.1.symm.trans hz) hHz.2
  | iret hl =>
    have hprinted : m.printed = m.handled := by rw [Ticking.printed, hl]
    rw [hprinted] at hlog
    rw [hl] at hledger
    exact ⟨hperiodic, hlvt, hinitial, hloaded, hphase, hfired, hledger, nofun, hticks, hHz, nofun, nofun, hlog⟩

theorem TimerReach.counts {frequency measured : UInt32} {o : TimerState} {m : Ticking} (h : TimerReach o m)
    (ho : Started frequency measured o) (hgap : o.entered - o.loaded < o.apic.initial.toNat) : Counts o m := by
  induction h with
  | start => exact counts_start ho hgap
  | step _ hstep ih => exact ih.step hstep

/-- **`ticks` counts the periods.** After an `apic_timer_init` that returns 0 and did not take longer than a period
between its last two writes, in every interleaving of the clock, `timer_irq` and other handlers: `timer_irq` never
divides by zero; the interrupts handled, the one that is accepted but not counted, the one that waits and those that
came while one was waiting are together the periods that ended since then (and a request that was there before); and
outside the handlers the log has the lines of the ticks up to the last one. -/
theorem timer_counts (e : Surroundings) (frequency : UInt32) (s o : TimerState) (m : Ticking)
    (h : apicTimerInit e frequency s = (0, o)) (hgap : o.entered - o.loaded < o.apic.initial.toNat)
    (hm : TimerReach o m) :
    m.cpu ≠ .divideError ∧ m.ticks = UInt64.ofNat m.handled ∧
    m.handled + m.cpu.uncounted + m.apic.requested.toNat + m.apic.merged + (o.time - o.loaded) / o.apic.initial.toNat
      = (m.time - o.loaded) / o.apic.initial.toNat + o.apic.requested.toNat + o.apic.merged ∧
    (m.cpu = .main → m.log = linesUpTo (frequencyOf frequency) m.handled) := by
  have hzero : (apicTimerInit e frequency s).1 = 0 := by rw [h]
  obtain ⟨measured, hstarted⟩ := started_of_init hzero
  rw [h] at hstarted
  have hc := hm.counts hstarted hgap
  have hledger := hc.ledger
  have hfired := hc.fired
  refine ⟨hc.cpu, hc.ticks, by omega, fun hmain => ?_⟩
  rw [hc.log, hc.tickHz.1, show o.tickHz = frequencyOf frequency from hstarted.tickHz, Ticking.printed, hmain]

theorem gap_steady {s' : TimerState} (hs' : s' = (apicTimerInit steady 100 unusedTimer).2) :
    s'.entered - s'.loaded < s'.apic.initial.toNat := by
  obtain ⟨measured, hstarted⟩ := started_of_init apicTimerInit_steady
  obtain ⟨s₀, -, -, -, he⟩ := apicTimerInit_cases apicTimerInit_steady
  rw [← hs'] at hstarted he
  have hge := hstarted.measured_ge
  have hgap : s'.entered - s'.loaded = 400 := by
    rw [he]
    show ((calibrated steady s₀).time + 200 + 200 + 200) - ((calibrated steady s₀).time + 200) = 400
    omega
  rw [hgap, hstarted.initial, toNat_initialCount_hundred hge]
  omega

/-- The clock alone, `n` times -/
theorem TimerReach.clocks {o : TimerState} {m : Ticking} (h : TimerReach o m) (n : Nat) :
    TimerReach o { m with apic := m.apic.clocks n, time := m.time + n } := by
  induction n with
  | zero => exact h
  | succ n ih =>
    rw [Lapic.clocks_succ]
    exact ih.step (TimerStep.clock _)

/-- The first tick: a period ends, its interrupt is accepted, and `timer_irq` runs to its end. -/
theorem exists_first_tick {o : TimerState} {frequency measured : UInt32} (ho : Started frequency measured o)
    (hgap : o.entered - o.loaded < o.apic.initial.toNat) (hidle : o.apic.inService = false) :
    ∃ m, TimerReach o m ∧ m.cpu = .main ∧ m.handled = 1 := by
  obtain ⟨a, ha⟩ : ∃ a, a = o.apic.clocks o.apic.initial.toNat := ⟨_, rfl⟩
  have hsame : Lapic.SameSetup o.apic a := ha ▸ Lapic.sameSetup_clocks _ _
  have hfired : o.apic.fired < a.fired := by
    have hpos : 0 < o.apic.initial.toNat := by omega
    rw [ha, ((ho.running hgap).1.clocks _).2.2, Nat.add_div_right _ hpos]
    exact Nat.lt_add_of_pos_right (Nat.succ_pos _)
  have hrequested : a.requested = true := by
    rw [ha] at hfired ⊢
    exact Lapic.requested_clocks hfired
  have haccept : a.accept = some (32, { a with requested := false, inService := true }) := by
    rw [Lapic.accept, hrequested, hsame.inService, hidle, hsame.lvt, ho.lvt]
    rfl
  have hz : o.tickHz ≠ 0 := by
    rw [ho.tickHz]
    exact frequencyOf_ne_zero frequency
  have hwaits : TimerReach o { Ticking.start o with apic := a, time := o.time + o.apic.initial.toNat } :=
    ha ▸ TimerReach.start.clocks o.apic.initial.toNat
  have hentered := hwaits.step (TimerStep.accept _ 32 _ rfl haccept)
  have hended := (hentered.step (TimerStep.count _ rfl)).step (TimerStep.eoi _ rfl)
  have hprinted := hended.step (TimerStep.print _ rfl hz)
  exact ⟨_, hprinted.step (TimerStep.iret _ rfl), rfl, rfl⟩

/-- After the first tick: it is counted and its line is printed. -/
theorem timer_counts_first : ∃ o m, apicTimerInit steady 100 unusedTimer = (0, o) ∧ TimerReach o m ∧
    m.handled = 1 ∧ m.cpu ≠ .divideError ∧ m.ticks = 1 ∧
    1 + m.apic.requested.toNat + m.apic.merged + (o.time - o.loaded) / o.apic.initial.toNat
      = (m.time - o.loaded) / o.apic.initial.toNat + o.apic.requested.toNat + o.apic.merged ∧
    m.log = [.first] := by
  obtain ⟨o, ho⟩ : ∃ o, o = (apicTimerInit steady 100 unusedTimer).2 := ⟨_, rfl⟩
  have h : apicTimerInit steady 100 unusedTimer = (0, o) := Prod.ext apicTimerInit_steady ho.symm
  obtain ⟨measured, hstarted⟩ := started_of_init apicTimerInit_steady
  have hidle : o.apic.inService = false := ho ▸ apicTimerInit_inService apicTimerInit_steady
  obtain ⟨m, hm, hmain, hone⟩ := exists_first_tick (ho ▸ hstarted) (gap_steady ho) hidle
  obtain ⟨hcpu, hticks, hledger, hlog⟩ := timer_counts steady 100 unusedTimer o m h (gap_steady ho) hm
  rw [hone] at hticks hledger
  rw [hmain] at hledger
  refine ⟨o, m, h, hm, hone, hcpu, hticks, hledger, ?_⟩
  rw [hlog hmain, hone]
  decide

end MinOS.Interrupt
