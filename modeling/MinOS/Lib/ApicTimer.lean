/-
# MinOS.Lib.ApicTimer — the timer of a local APIC.

A count-down register with a reload value. Writing the initial count loads the current one; each count of the
divided clock takes one off it, and at zero the timer asks for an interrupt, unless its entry is masked or the APIC
is off. In periodic mode the current count is then loaded again, in one-shot mode it stays at zero until the next
write. A request that is still there when the next one comes is one request.

The counts since the last load are the phase; in periodic mode they count on, and the interrupts asked for are
their quotient by the period (`Lapic.Periodic.clocks`).
-/
import Mathlib.Data.Nat.ModEq
import Mathlib.Logic.Function.Iterate

namespace ApicTimer

/-- The registers, the request and in-service bits of the timer's vector, how many interrupts were asked for, and
how many of them found the one before still waiting -/
structure Lapic where
  svr : UInt32
  divide : UInt32
  lvt : UInt32
  initial : UInt32
  current : UInt32
  requested : Bool
  inService : Bool
  fired : Nat
  merged : Nat
  deriving DecidableEq, Repr

namespace Lapic

/-- The APIC is on and the timer's entry is not masked. -/
def open? (a : Lapic) : Bool := a.svr &&& 0x100 != 0 && a.lvt &&& 0x10000 == 0

/-- The entry is in periodic mode. -/
def periodic? (a : Lapic) : Bool := a.lvt &&& 0x20000 != 0

/-- The count has reached zero. -/
def expire (a : Lapic) : Lapic :=
  if a.open? then
    { a with
      requested := true
      fired := a.fired + 1
      merged := if a.requested then a.merged + 1 else a.merged }
  else a

/-- One count of the divided clock -/
def clock (a : Lapic) : Lapic :=
  if a.current = 0 then a
  else if a.current = 1 then { a.expire with current := if a.periodic? then a.initial else 0 }
  else { a with current := a.current - 1 }

/-- `n` counts -/
def clocks (n : Nat) (a : Lapic) : Lapic := clock^[n] a

/-- A 32-bit read at this offset; the registers that are not modelled read as 0. -/
def read (a : Lapic) (reg : UInt32) : UInt32 :=
  if reg = 0x0F0 then a.svr
  else if reg = 0x320 then a.lvt
  else if reg = 0x380 then a.initial
  else if reg = 0x390 then a.current
  else if reg = 0x3E0 then a.divide
  else 0

/-- A 32-bit write -/
def write (reg value : UInt32) (a : Lapic) : Lapic :=
  if reg = 0x0B0 then { a with inService := false }
  else if reg = 0x0F0 then { a with svr := value }
  else if reg = 0x320 then { a with lvt := value }
  else if reg = 0x380 then { a with initial := value, current := value }
  else if reg = 0x3E0 then { a with divide := value }
  else a

/-- The processor takes the interrupt: the vector, and the state after it -/
def accept (a : Lapic) : Option (UInt8 × Lapic) :=
  if a.requested && !a.inService then some (a.lvt.toUInt8, { a with requested := false, inService := true })
  else none

theorem clocks_add (m n : Nat) (a : Lapic) : clocks (m + n) a = clocks m (clocks n a) :=
  Function.iterate_add_apply _ m n a

theorem clocks_succ (n : Nat) (a : Lapic) : clocks (n + 1) a = (clocks n a).clock :=
  Function.iterate_succ_apply' _ n a

/-! ## What stays -/

/-- The registers that only a write changes -/
structure SameSetup (a b : Lapic) : Prop where
  svr : b.svr = a.svr
  divide : b.divide = a.divide
  lvt : b.lvt = a.lvt
  initial : b.initial = a.initial
  inService : b.inService = a.inService

theorem SameSetup.trans {a b c : Lapic} (h : SameSetup a b) (h' : SameSetup b c) : SameSetup a c :=
  ⟨h'.svr.trans h.svr, h'.divide.trans h.divide, h'.lvt.trans h.lvt, h'.initial.trans h.initial,
    h'.inService.trans h.inService⟩

theorem SameSetup.open?_eq {a b : Lapic} (h : SameSetup a b) : b.open? = a.open? := by
  rw [open?, open?, h.svr, h.lvt]

theorem SameSetup.periodic?_eq {a b : Lapic} (h : SameSetup a b) : b.periodic? = a.periodic? := by
  rw [periodic?, periodic?, h.lvt]

theorem sameSetup_clock (a : Lapic) : SameSetup a a.clock := by
  have hexpire : SameSetup a a.expire := by
    unfold expire
    split <;> exact ⟨rfl, rfl, rfl, rfl, rfl⟩
  unfold clock
  split
  · exact ⟨rfl, rfl, rfl, rfl, rfl⟩
  · split
    · exact ⟨hexpire.svr, hexpire.divide, hexpire.lvt, hexpire.initial, hexpire.inService⟩
    · exact ⟨rfl, rfl, rfl, rfl, rfl⟩

theorem sameSetup_clocks (n : Nat) (a : Lapic) : SameSetup a (clocks n a) := by
  induction n with
  | zero => exact ⟨rfl, rfl, rfl, rfl, rfl⟩
  | succ n ih =>
    rw [clocks_succ]
    exact ih.trans (sameSetup_clock _)

/-- Only the end-of-interrupt register clears the in-service bit. -/
theorem write_inService {reg : UInt32} (h : reg ≠ 0x0B0) (value : UInt32) (a : Lapic) :
    (a.write reg value).inService = a.inService := by
  unfold write
  rw [if_neg h]
  split <;> [rfl; split <;> [rfl; split <;> [rfl; split <;> rfl]]]

/-! ## Masked -/

theorem expire_of_closed {a : Lapic} (h : a.open? = false) : a.expire = a := by
  rw [expire, h]
  rfl

theorem clock_masked {a : Lapic} (hmasked : a.open? = false) (hmode : a.periodic? = false) :
    a.clock = { a with current := UInt32.ofNat (a.current.toNat - 1) } := by
  have hbound := a.current.toNat_lt
  unfold clock
  split
  · rename_i hzero
    rw [show UInt32.ofNat (a.current.toNat - 1) = a.current by rw [hzero]; rfl]
  · rename_i hne
    split
    · rename_i hone
      rw [expire_of_closed hmasked, hmode, hone]
      rfl
    · congr 1
      have hpos : (1 : UInt32).toNat ≤ a.current.toNat :=
        Nat.pos_of_ne_zero fun h0 => hne (UInt32.toNat_inj.mp h0)
      apply UInt32.toNat_inj.mp
      rw [UInt32.toNat_sub_of_le _ _ (UInt32.le_iff_toNat_le.mpr hpos)]
      exact (UInt32.toNat_ofNat_of_lt' (show a.current.toNat - 1 < 2 ^ 32 by omega)).symm

/-- **A masked one-shot timer** counts down to zero, stays there and asks for nothing. -/
theorem clocks_masked {a : Lapic} (hmasked : a.open? = false) (hmode : a.periodic? = false) (n : Nat) :
    clocks n a = { a with current := UInt32.ofNat (a.current.toNat - n) } := by
  induction n with
  | zero => simp [clocks]
  | succ n ih =>
    have hbound := a.current.toNat_lt
    have hleft : (UInt32.ofNat (a.current.toNat - n)).toNat = a.current.toNat - n :=
      UInt32.toNat_ofNat_of_lt' (show a.current.toNat - n < 2 ^ 32 by omega)
    rw [clocks_succ, ih]
    refine (clock_masked (a := { a with current := UInt32.ofNat (a.current.toNat - n) }) hmasked hmode).trans ?_
    rw [hleft, Nat.sub_sub]

/-! ## Periodic -/

/-- One more count may be one more period. -/
theorem succ_div (x : Nat) {k : Nat} (hk : 0 < k) : (x + 1) / k = x / k + (x % k + 1) / k := by
  have hx := Nat.div_add_mod x k
  conv_lhs => rw [← hx, Nat.add_assoc, Nat.mul_add_div hk]

/-- The timer runs in periodic mode. -/
structure Periodic (a : Lapic) : Prop where
  opened : a.open? = true
  periodic : a.periodic? = true
  pos : 0 < a.current.toNat
  le : a.current.toNat ≤ a.initial.toNat

/-- The counts since the last load -/
def phase (a : Lapic) : Nat := a.initial.toNat - a.current.toNat

/-- One count of a periodic timer -/
theorem Periodic.clock {a : Lapic} (h : a.Periodic) : a.clock.Periodic ∧
    a.clock.phase = (a.phase + 1) % a.initial.toNat ∧
    a.clock.fired = a.fired + (a.phase + 1) / a.initial.toNat := by
  obtain ⟨hopen, hperiodic, hpos, hle⟩ := h
  have hne : a.current ≠ 0 := by
    intro h0
    rw [h0] at hpos
    exact absurd hpos (by decide)
  unfold Lapic.clock
  rw [if_neg hne]
  split
  · -- the last count of the period
    rename_i hone
    have hphase : a.phase + 1 = a.initial.toNat := by
      rw [hone] at hle
      rw [phase, hone]
      simp at hle ⊢
      omega
    have hinitial : 0 < a.initial.toNat := by omega
    rw [hphase, Nat.mod_self, Nat.div_self hinitial]
    unfold expire
    rw [if_pos hopen]
    exact ⟨⟨hopen, hperiodic, hinitial, le_refl _⟩, Nat.sub_self _, rfl⟩
  · rename_i hnotone
    have htwo : 2 ≤ a.current.toNat := by
      have hone : a.current.toNat ≠ 1 := fun h1 => hnotone (UInt32.toNat_inj.mp h1)
      omega
    have hsub : (a.current - 1).toNat = a.current.toNat - 1 := by
      rw [UInt32.toNat_sub_of_le]
      · rfl
      · rw [UInt32.le_iff_toNat_le]
        exact hpos
    have hlt : a.phase + 1 < a.initial.toNat := by
      rw [phase]
      omega
    rw [Nat.mod_eq_of_lt hlt, Nat.div_eq_of_lt hlt]
    refine ⟨⟨hopen, hperiodic, ?_, ?_⟩, ?_, rfl⟩
    · dsimp only
      omega
    · dsimp only
      omega
    · rw [phase, phase]
      dsimp only
      omega

/-- **A periodic timer asks for an interrupt every `initial` counts.** -/
theorem Periodic.clocks {a : Lapic} (h : a.Periodic) (n : Nat) : (Lapic.clocks n a).Periodic ∧
    (Lapic.clocks n a).phase = (a.phase + n) % a.initial.toNat ∧
    (Lapic.clocks n a).fired = a.fired + (a.phase + n) / a.initial.toNat := by
  have hinitial : 0 < a.initial.toNat := by
    have := h.pos
    have := h.le
    omega
  have hlt : a.phase < a.initial.toNat := by
    have := h.pos
    rw [phase]
    omega
  induction n with
  | zero => exact ⟨h, (Nat.mod_eq_of_lt hlt).symm, by rw [Nat.add_zero, Nat.div_eq_of_lt hlt]; rfl⟩
  | succ n ih =>
    obtain ⟨hp, hphase, hfired⟩ := ih
    obtain ⟨hp', hphase', hfired'⟩ := hp.clock
    rw [clocks_succ]
    rw [(sameSetup_clocks n a).initial] at hphase' hfired'
    refine ⟨hp', ?_, ?_⟩
    · rw [hphase', hphase, Nat.mod_add_mod, Nat.add_assoc]
    · rw [hfired', hfired, hphase, Nat.add_assoc, ← Nat.add_assoc a.phase n 1, succ_div (a.phase + n) hinitial]

/-- What a count does to the request and its two counters -/
theorem clock_ledger (a : Lapic) :
    a.clock.merged + a.clock.requested.toNat + a.fired = a.merged + a.requested.toNat + a.clock.fired := by
  have hexpire : a.expire.merged + a.expire.requested.toNat + a.fired
      = a.merged + a.requested.toNat + a.expire.fired := by
    unfold expire
    split
    · cases a.requested with
      | false => simp; omega
      | true => simp; omega
    · rfl
  unfold clock
  split
  · rfl
  · split
    · exact hexpire
    · rfl

/-- A count either asks for an interrupt or leaves the request as it was. -/
theorem requested_clock (a : Lapic) :
    a.clock.requested = true ∨ a.clock.fired = a.fired ∧ a.clock.requested = a.requested := by
  have hexpire : a.expire.requested = true ∨ a.expire.fired = a.fired ∧ a.expire.requested = a.requested := by
    unfold expire
    split
    · exact Or.inl rfl
    · exact Or.inr ⟨rfl, rfl⟩
  unfold clock
  split
  · exact Or.inr ⟨rfl, rfl⟩
  · split
    · exact hexpire
    · exact Or.inr ⟨rfl, rfl⟩

/-- An interrupt that was asked for waits. -/
theorem requested_clocks {a : Lapic} {n : Nat} (h : a.fired < (clocks n a).fired) :
    (clocks n a).requested = true := by
  induction n with
  | zero => exact absurd h (Nat.lt_irrefl _)
  | succ n ih =>
    rw [clocks_succ] at h ⊢
    obtain hreq | ⟨hfired, hreq⟩ := requested_clock (clocks n a)
    · exact hreq
    · rw [hreq]
      exact ih (hfired ▸ h)

/-- A timer whose count is at zero asks for nothing until it is loaded. -/
theorem clocks_of_zero {a : Lapic} (h : a.current = 0) (n : Nat) : Lapic.clocks n a = a := by
  induction n with
  | zero => rfl
  | succ n ih => rw [clocks_succ, ih, Lapic.clock, if_pos h]

end Lapic

end ApicTimer
