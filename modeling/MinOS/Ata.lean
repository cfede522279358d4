/-
# MinOS.Ata — the primary master as the filesystem sees it.

`ata_read28` and `ata_write28` move one 512-byte sector. `ata_transfer` refuses an address before it
touches a port (no drive, more than 28 bits, past the sector count); after that the drive decides. The
drive's decisions are a script: whether the next read times out, and whether the next write is stored,
refused before the data phase, or stored and then never confirmed by the cache flush. An exhausted
script means a drive that works.

`trace` is a history variable: every call of the two functions, oldest first, with its result.
-/
import Mathlib.Data.List.Basic
import Mathlib.Data.Nat.Bitwise

namespace MinOS.Ata

/-- The bytes of one sector. -/
abbrev Sector := Fin 512 → UInt8

/-- What the drive makes of a write whose address was accepted. -/
inductive WriteOutcome
  | stored
  /-- A wait before the data phase timed out: nothing was stored. -/
  | refused
  /-- The data went through, the wait after the cache flush timed out. -/
  | unconfirmed
  deriving DecidableEq, Repr

/-- One call of `ata_read28` or `ata_write28` and whether it returned 0. -/
inductive Transfer
  | read (lba : UInt32) (ok : Bool)
  | write (lba : UInt32) (data : Sector) (ok : Bool)

/-- Whether the call returned 0. -/
def Transfer.ok : Transfer → Bool
  | .read _ ok => ok
  | .write _ _ ok => ok

/-- The driver's two statics, the medium, the drive's future decisions and the calls so far. -/
structure Drive where
  present : Bool
  sectorCount : UInt32
  sectors : Nat → Sector
  /-- `true`: the read times out. -/
  readScript : List Bool
  writeScript : List WriteOutcome
  trace : List Transfer

/-- The guard at the head of `ata_transfer`. -/
def ataTransferAccepts (d : Drive) (lba : UInt32) : Bool :=
  d.present && (lba &&& 0xF0000000 == 0) && !(d.sectorCount == 0) && (lba < d.sectorCount)

/-- `ata_primary_master_present`. -/
def ataPrimaryMasterPresent (d : Drive) : Bool := d.present

/-- `ata_read28`: the sector, or `none` for -1. -/
def ataRead28 (d : Drive) (lba : UInt32) : Option Sector × Drive :=
  if ataTransferAccepts d lba then
    if d.readScript.headD false then
      (none, { d with readScript := d.readScript.tail, trace := d.trace ++ [.read lba false] })
    else
      (some (d.sectors lba.toNat),
        { d with readScript := d.readScript.tail, trace := d.trace ++ [.read lba true] })
  else (none, { d with trace := d.trace ++ [.read lba false] })

/-- Replace one sector of the medium. -/
def Drive.store (d : Drive) (lba : UInt32) (data : Sector) : Drive :=
  { d with sectors := Function.update d.sectors lba.toNat data }

/-- `ata_write28`: whether it returned 0. -/
def ataWrite28 (d : Drive) (lba : UInt32) (data : Sector) : Bool × Drive :=
  if ataTransferAccepts d lba then
    let d' := { d with writeScript := d.writeScript.tail }
    match d.writeScript.headD .stored with
    | .stored => (true, { d'.store lba data with trace := d.trace ++ [.write lba data true] })
    | .refused => (false, { d' with trace := d.trace ++ [.write lba data false] })
    | .unconfirmed => (false, { d'.store lba data with trace := d.trace ++ [.write lba data false] })
  else (false, { d with trace := d.trace ++ [.write lba data false] })

/-! ## Which addresses are served -/

theorem and_high_nibble_of_lt {lba : UInt32} (h : lba.toNat < 2 ^ 28) : lba &&& 0xF0000000 = 0 := by
  rw [← UInt32.toNat_inj, UInt32.toNat_and]
  apply Nat.eq_of_testBit_eq
  intro i
  rw [Nat.testBit_and, show (0xF0000000 : UInt32).toNat = 15 * 2 ^ 28 from rfl]
  by_cases hi : i < 28
  · rw [Nat.testBit_mul_two_pow]
    simp [Nat.not_le.mpr hi]
  · have : lba.toNat < 2 ^ i := lt_of_lt_of_le h (Nat.pow_le_pow_right (by omega) (by omega))
    simp [Nat.testBit_lt_two_pow this]

/-- Every 28-bit address below the sector count of a present drive is served. -/
theorem ataTransferAccepts_of_lt {d : Drive} {lba : UInt32} (hp : d.present = true)
    (h28 : lba.toNat < 2 ^ 28) (hc : lba.toNat < d.sectorCount.toNat) :
    ataTransferAccepts d lba = true := by
  have hlt : lba < d.sectorCount := UInt32.lt_iff_toNat_lt.mpr hc
  have hne : d.sectorCount ≠ 0 := by
    intro h0
    rw [h0] at hc
    exact absurd hc (Nat.not_lt_zero _)
  simp [ataTransferAccepts, hp, and_high_nibble_of_lt h28, hne, hlt]

/-- The guard reads the driver's statics only. -/
theorem ataTransferAccepts_congr {d e : Drive} (hp : e.present = d.present)
    (hc : e.sectorCount = d.sectorCount) (lba : UInt32) :
    ataTransferAccepts e lba = ataTransferAccepts d lba := by
  simp only [ataTransferAccepts, hp, hc]

/-! ## One transfer -/

section Transfers

variable (d : Drive) (lba : UInt32) (data : Sector)

/-- **A read**: it succeeds if the address is served and the script does not let it time out; it takes
one decision off the script if it got that far. -/
theorem ataRead28_eq : ataRead28 d lba =
    (if ataTransferAccepts d lba && !d.readScript.headD false then some (d.sectors lba.toNat) else none,
      { d with
        readScript := if ataTransferAccepts d lba then d.readScript.tail else d.readScript
        trace := d.trace ++ [.read lba (ataTransferAccepts d lba && !d.readScript.headD false)] }) := by
  unfold ataRead28
  cases ataTransferAccepts d lba with
  | false => rfl
  | true => cases d.readScript.headD false <;> rfl

@[simp] theorem ataRead28_present : (ataRead28 d lba).2.present = d.present := by
  rw [ataRead28_eq]

@[simp] theorem ataRead28_sectorCount : (ataRead28 d lba).2.sectorCount = d.sectorCount := by
  rw [ataRead28_eq]

@[simp] theorem ataRead28_sectors : (ataRead28 d lba).2.sectors = d.sectors := by
  rw [ataRead28_eq]

@[simp] theorem ataRead28_writeScript : (ataRead28 d lba).2.writeScript = d.writeScript := by
  rw [ataRead28_eq]

/-- Whether a read succeeds is decided by the address and the head of the script. -/
theorem ataRead28_isSome :
    (ataRead28 d lba).1.isSome = (ataTransferAccepts d lba && !d.readScript.headD false) := by
  rw [ataRead28_eq]
  cases ataTransferAccepts d lba && !d.readScript.headD false <;> rfl

theorem ataRead28_trace :
    (ataRead28 d lba).2.trace = d.trace ++ [.read lba (ataRead28 d lba).1.isSome] := by
  rw [ataRead28_isSome, ataRead28_eq]

/-- A read that returns 0 returns the sector. -/
theorem ataRead28_eq_some (sector : Sector) (h : (ataRead28 d lba).1 = some sector) :
    sector = d.sectors lba.toNat := by
  rw [ataRead28_eq] at h
  exact Option.some.inj (Option.ite_none_right_eq_some.mp h).2.symm

/-- A served read takes one decision off the script. -/
theorem ataRead28_readScript (h : ataTransferAccepts d lba = true) :
    (ataRead28 d lba).2.readScript = d.readScript.tail := by
  rw [ataRead28_eq]
  exact if_pos h

theorem ataRead28_readScript_of_nil (hs : d.readScript = []) :
    (ataRead28 d lba).2.readScript = [] := by
  rw [ataRead28_eq]
  simp [hs]

/-- The drive's decision on the next write -/
def Drive.nextWrite (d : Drive) : WriteOutcome := d.writeScript.headD .stored

/-- **A write**: the sector changes unless the address or the drive refused it, and 0 is returned if it
was stored and confirmed. -/
theorem ataWrite28_eq : ataWrite28 d lba data =
    (ataTransferAccepts d lba && d.nextWrite = .stored,
      { d with
        sectors := if ataTransferAccepts d lba && d.nextWrite ≠ .refused then
            Function.update d.sectors lba.toNat data
          else d.sectors
        writeScript := if ataTransferAccepts d lba then d.writeScript.tail else d.writeScript
        trace := d.trace ++ [.write lba data (ataTransferAccepts d lba && d.nextWrite = .stored)] }) := by
  unfold ataWrite28 Drive.nextWrite
  cases ataTransferAccepts d lba with
  | false => rfl
  | true => cases d.writeScript.headD .stored <;> rfl

@[simp] theorem ataWrite28_present : (ataWrite28 d lba data).2.present = d.present := by
  rw [ataWrite28_eq]

@[simp] theorem ataWrite28_sectorCount :
    (ataWrite28 d lba data).2.sectorCount = d.sectorCount := by
  rw [ataWrite28_eq]

@[simp] theorem ataWrite28_readScript : (ataWrite28 d lba data).2.readScript = d.readScript := by
  rw [ataWrite28_eq]

theorem ataWrite28_trace :
    (ataWrite28 d lba data).2.trace
      = d.trace ++ [.write lba data (ataWrite28 d lba data).1] := by
  rw [ataWrite28_eq]

/-- A write touches no sector but its own. -/
theorem ataWrite28_sectors_of_ne {n : Nat} (h : n ≠ lba.toNat) :
    (ataWrite28 d lba data).2.sectors n = d.sectors n := by
  rw [ataWrite28_eq]
  dsimp only
  split
  · exact Function.update_of_ne h _ _
  · rfl

/-- A write that returns 0 was in range, and the drive stored it. -/
theorem ataWrite28_eq_true (h : (ataWrite28 d lba data).1 = true) :
    ataTransferAccepts d lba = true ∧ d.nextWrite = .stored := by
  rw [ataWrite28_eq] at h
  simpa using h

/-- A write that returns 0 has stored its data, and nothing else. -/
theorem ataWrite28_sectors_of_ok (h : (ataWrite28 d lba data).1 = true) :
    (ataWrite28 d lba data).2.sectors = Function.update d.sectors lba.toNat data := by
  obtain ⟨hacc, hnext⟩ := ataWrite28_eq_true d lba data h
  rw [ataWrite28_eq]
  simp [hacc, hnext]

/-- With an empty script every served write is stored, and the script stays empty. -/
theorem ataWrite28_of_nil (hs : d.writeScript = []) (h : ataTransferAccepts d lba = true) :
    (ataWrite28 d lba data).1 = true := by
  rw [ataWrite28_eq]
  simp [h, hs, Drive.nextWrite]

theorem ataWrite28_writeScript_of_nil (hs : d.writeScript = []) :
    (ataWrite28 d lba data).2.writeScript = [] := by
  rw [ataWrite28_eq]
  simp [hs]

/-- The next decision is to store the write. -/
theorem ataWrite28_of_stored {ws : List WriteOutcome} (hs : d.writeScript = .stored :: ws)
    (h : ataTransferAccepts d lba = true) :
    (ataWrite28 d lba data).1 = true ∧ (ataWrite28 d lba data).2.writeScript = ws := by
  rw [ataWrite28_eq]
  simp [h, hs, Drive.nextWrite]

/-- The next decision is to refuse it. -/
theorem ataWrite28_of_refused {ws : List WriteOutcome} (hs : d.writeScript = .refused :: ws)
    (h : ataTransferAccepts d lba = true) :
    (ataWrite28 d lba data).1 = false ∧ (ataWrite28 d lba data).2.sectors = d.sectors := by
  rw [ataWrite28_eq]
  simp [h, hs, Drive.nextWrite]

end Transfers

end MinOS.Ata
