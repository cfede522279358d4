/-
# MinOS.Ata.RoundTrip — sectors go to the drive and come back.

`ata_write28` and `ata_read28` against the drive of `MinOS.Ata.Ports`: what is written to a sector is what is read from
it, another address is another sector, and an address that is out of range never gets to the ports. The range is the
one that `ata_primary_master_init` took from the drive's identification.
-/
import MinOS.Ata.Ports

namespace MinOS.Ata.Ports

open Raster (loop loop_keeps)

/-! ## The range -/

section Init

@[simp] theorem polledTo_identity (d : Device) (j : Nat) : (d.polledTo j).identity = d.identity := rfl

@[simp] theorem inbStatus_identity (d : Device) : (inbStatus d).2.identity = d.identity := rfl

@[simp] theorem inbStatus_phase (d : Device) : (inbStatus d).2.phase = d.phase := rfl

@[simp] theorem inbLba_identity (port : UInt16) (d : Device) : (inbLba port d).2.identity = d.identity := rfl

@[simp] theorem inbLba_phase (port : UInt16) (d : Device) : (inbLba port d).2.phase = d.phase := rfl

@[simp] theorem ataWait_identity (mask value : UInt8) (timeout : Nat) (d : Device) :
    (ataWait mask value timeout d).2.identity = d.identity := by
  obtain ⟨j, hwait⟩ := @ataWait_eq_polledTo mask value timeout d
  rw [hwait, polledTo_identity]

@[simp] theorem ataWait_phase (mask value : UInt8) (timeout : Nat) (d : Device) :
    (ataWait mask value timeout d).2.phase = d.phase := by
  obtain ⟨j, hwait⟩ := @ataWait_eq_polledTo mask value timeout d
  rw [hwait, polledTo_phase]

/-- Waiting for the identification changes neither what is identified nor the phase. -/
theorem awaitIdentity_keeps (d : Device) :
    (awaitIdentity d).2.identity = d.identity ∧ (awaitIdentity d).2.phase = d.phase := by
  unfold awaitIdentity
  dsimp only
  split
  · simp
  split
  · simp
  split
  · simp
  split
  · simp
  · simp

theorem identifyWords_eq {d : Device} (h : d.phase = .identifying 0) :
    (identifyWords d).1 = d.identity 60 ∧ (identifyWords d).2.1 = d.identity 61 := by
  have hall : (60 < 256 → (identifyWords d).1 = d.identity 60) ∧ (61 < 256 → (identifyWords d).2.1 = d.identity 61) ∧
      (identifyWords d).2.2.identity = d.identity ∧
      (identifyWords d).2.2.phase = if 256 < 256 then .identifying 256 else .idle := by
    refine loop_keeps (fun i (s : UInt16 × UInt16 × Device) => (60 < i → s.1 = d.identity 60) ∧
      (61 < i → s.2.1 = d.identity 61) ∧ s.2.2.identity = d.identity ∧
      s.2.2.phase = if i < 256 then .identifying i else .idle) ?_ ?_
    · exact ⟨fun h => absurd h (by omega), fun h => absurd h (by omega), rfl, h⟩
    · intro i s hi hs
      obtain ⟨hlow, hhigh, hidentity, hphase⟩ := hs
      rw [if_pos hi] at hphase
      have hgive : s.2.2.give = (d.identity i, nextPhase .identifying i) := by
        simp [Device.give, hphase, hidentity]
      refine ⟨?_, ?_, hidentity, ?_⟩
      · intro hlt
        show (if i = 60 then s.2.2.give.1 else s.1) = _
        rw [hgive]
        split
        · rename_i h60
          rw [h60]
        · exact hlow (by omega)
      · intro hlt
        show (if i = 61 then s.2.2.give.1 else s.2.1) = _
        rw [hgive]
        split
        · rename_i h61
          rw [h61]
        · exact hhigh (by omega)
      · show s.2.2.give.2 = _
        rw [hgive]
        rfl
  exact ⟨hall.1 (by omega), hall.2.1 (by omega)⟩

theorem identify_keeps (d : Device) : (identify d).identity = d.identity ∧ (identify d).phase = .identifying 0 := by
  have hmaster : (0xA0 : UInt8) &&& 0x10 = 0 := rfl
  simp [identify, ioWait, outb, Device.latch, Device.command, ataControl, ataDrive, ataSeccount, ataLba0, ataLba1,
    ataLba2, ataStatus, hmaster]

/-- **The sector count** is the one the drive identifies itself with; without an identification there is no drive. -/
theorem ataPrimaryMasterInit_statics (d : Device) :
    ((ataPrimaryMasterInit d).1 = 0 ∧ (ataPrimaryMasterInit d).2.1 =
      ⟨true, ((d.identity 61).toUInt32 <<< 16) ||| (d.identity 60).toUInt32⟩) ∨
    ((ataPrimaryMasterInit d).1 = -1 ∧ (ataPrimaryMasterInit d).2.1 = ⟨false, 0⟩) := by
  obtain ⟨hidentity, hphase⟩ := awaitIdentity_keeps (identify d)
  rw [(identify_keeps d).1] at hidentity
  rw [(identify_keeps d).2] at hphase
  obtain ⟨hlow, hhigh⟩ := identifyWords_eq hphase
  cases hfound : (awaitIdentity (identify d)).1 with
  | false =>
    right
    simp [ataPrimaryMasterInit, hfound]
  | true =>
    left
    simp [ataPrimaryMasterInit, hfound, hlow, hhigh, hidentity]

theorem toNat_sectorCount (low high : UInt16) :
    ((high.toUInt32 <<< 16) ||| low.toUInt32).toNat = 65536 * high.toNat + low.toNat := by
  have hlow := low.toNat_lt
  have hhigh := high.toNat_lt
  have hshift : (high.toUInt32 <<< 16).toNat = 2 ^ 16 * high.toNat := by
    rw [UInt32.toNat_shiftLeft, UInt16.toNat_toUInt32, show (16 : UInt32).toNat % 32 = 16 from rfl, Nat.shiftLeft_eq]
    omega
  rw [UInt32.toNat_or, hshift, UInt16.toNat_toUInt32, ← Nat.two_pow_add_eq_or_of_lt hlow]

/-- **Which addresses are served** once the driver has looked for the drive -/
theorem accepts_ataPrimaryMasterInit (d : Device) (lba : UInt32) :
    accepts (ataPrimaryMasterInit d).2.1 lba = true ↔ (ataPrimaryMasterInit d).1 = 0 ∧ lba.toNat < 2 ^ 28 ∧
      lba.toNat < 65536 * (d.identity 61).toNat + (d.identity 60).toNat := by
  rw [accepts_iff]
  rcases ataPrimaryMasterInit_statics d with ⟨hrc, hstatics⟩ | ⟨hrc, hstatics⟩
  · rw [hstatics, toNat_sectorCount, hrc]
    simp
  · simp [hrc, hstatics]

end Init

/-! ## Sectors -/

/-- **Distinct addresses** make distinct registers. -/
theorem address_issue (d : Device) {lba : UInt32} (h : lba.toNat < 2 ^ 28) (command : UInt8) :
    (issue lba command d).address = lba.toNat := by
  rw [issue_eq]
  exact address_addressed d h

/-- **The round trip.** A write that returns 0 has changed its sector and no other, and a read of it that returns 0
has the data; two addresses are two sectors; an address that is out of range gets -1 from both, and the ports are left
alone. -/
theorem ataWrite28_ataRead28 (st : Statics) (b old : Sector) (d : Device) :
    (∀ lba : UInt32, lba.toNat < st.sectorCount.toNat → lba.toNat < 2 ^ 28 → (ataWrite28 st lba b d).1 = 0 →
      (∀ n, (ataWrite28 st lba b d).2.sectors n = if n = lba.toNat then b else d.sectors n) ∧
      ((ataRead28 st lba old (ataWrite28 st lba b d).2).1 = 0 →
        (ataRead28 st lba old (ataWrite28 st lba b d).2).2.1 = b)) ∧
    (∀ (lba lba' : UInt32) (command command' : UInt8) (d' : Device), lba.toNat < 2 ^ 28 → lba'.toNat < 2 ^ 28 →
      lba ≠ lba' → (issue lba command d).address ≠ (issue lba' command' d').address) ∧
    (∀ lba : UInt32, ¬ (lba.toNat < st.sectorCount.toNat ∧ lba.toNat < 2 ^ 28) →
      ataWrite28 st lba b d = (-1, d) ∧ ataRead28 st lba old d = (-1, old, d)) := by
  refine ⟨?_, ?_, ?_⟩
  · intro lba _ _ hwritten
    have hsectors := ataWrite28_sectors hwritten
    refine ⟨?_, ?_⟩
    · intro n
      rw [hsectors, Function.update_apply]
    · intro hread
      rw [ataRead28_buffer hread, hsectors, Function.update_self]
  · intro lba lba' command command' d' h h' hne heq
    rw [address_issue d h, address_issue d' h'] at heq
    exact hne (UInt32.toNat_inj.mp heq)
  · intro lba hrange
    have hrefused : ¬ accepts st lba = true := by
      rw [accepts_iff]
      rintro ⟨-, hlow, hcount⟩
      exact hrange ⟨hcount, hlow⟩
    rw [ataWrite28, ataRead28, ataTransfer_refused hrefused, ataTransfer_refused hrefused]
    exact ⟨rfl, rfl⟩

/-- A drive of zeros that is ready whenever it is asked -/
def Device.obliging : Device where
  drive := 0
  count := 0
  lba0 := 0
  lba1 := 0
  lba2 := 0
  phase := .idle
  sectors := fun _ _ => 0
  identity := fun _ => 0
  status := fun _ => 0x48
  polls := 0
  log := []

/-- A status value that ends the wait at once -/
theorem firstPoll_now {mask value : UInt8} {status : Nat → UInt8} {start : Nat} (h : status start &&& mask = value) :
    firstPoll mask value status pollLimit start = some start := by
  have hlimit : pollLimit = 999999 + 1 := by rw [pollLimit]
  rw [hlimit, firstPoll, if_pos h]

section Ready

variable {st : Statics} {lba : UInt32} {buffer : Sector} {d : Device} (h : accepts st lba = true)
  (hready : ∀ i, d.status i = 0x48)
include h hready

theorem ataWrite28_of_ready : ataWrite28 st lba buffer d =
    (0, (d.flushed lba buffer d.polls (d.polls + 1)).polledTo (d.polls + 1 + 1 + 1)) := by
  refine ataWrite28_stored h (firstPoll_now ?_) (firstPoll_now ?_) (firstPoll_now ?_) <;> rw [hready] <;> rfl

theorem ataRead28_of_ready : (ataRead28 st lba buffer d).1 = 0 := by
  rw [ataRead28_ready h (firstPoll_now (by rw [hready]; rfl)) (firstPoll_now (by rw [hready]; rfl))]

end Ready

/-- Sector 65024 of a drive of 65536 sectors, and a pattern of bytes -/
theorem ataWrite28_ataRead28_pattern :
    (ataRead28 ⟨true, 65536⟩ 65024 (fun _ => 0)
      (ataWrite28 ⟨true, 65536⟩ 65024 (fun k => UInt8.ofNat k.val) Device.obliging).2).2.1 =
        fun k => UInt8.ofNat k.val := by
  have haccepts : accepts ⟨true, 65536⟩ 65024 = true := by decide
  have hwrite := @ataWrite28_of_ready _ _ (fun k => UInt8.ofNat k.val) Device.obliging haccepts fun _ => rfl
  refine ((ataWrite28_ataRead28 ⟨true, 65536⟩ (fun k => UInt8.ofNat k.val) (fun _ => 0) Device.obliging).1 65024
    (by decide) (by decide) ?_).2 ?_
  · rw [hwrite]
  · rw [hwrite]
    refine ataRead28_of_ready haccepts ?_
    intro i
    simp [Device.obliging]

end MinOS.Ata.Ports
