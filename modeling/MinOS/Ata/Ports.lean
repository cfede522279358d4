/-
# MinOS.Ata.Ports — `kernel/ata.c` down to the port accesses.

`MinOS.Ata` has the drive decide each transfer at once. Here the driver talks to a drive through its ports: a drive
latches the drive, count and address registers, and for the commands 0x20 and 0x30 it moves the sector at the 28-bit
address they encode, one word of the data port at a time. What it presents in its status register is up to it: `status`
is any sequence of values, one for each time the register is read.

`log` is a history variable: every access of a port, oldest first.
-/
import MinOS.Ata
import MinOS.Lib.Raster

namespace MinOS.Ata.Ports

open Raster (loop loop_keeps)

/-! ## Ports -/

/-- `ATA_DATA` -/
def ataData : UInt16 := 0x1F0
/-- `ATA_SECCOUNT` -/
def ataSeccount : UInt16 := 0x1F2
/-- `ATA_LBA0` -/
def ataLba0 : UInt16 := 0x1F3
/-- `ATA_LBA1` -/
def ataLba1 : UInt16 := 0x1F4
/-- `ATA_LBA2` -/
def ataLba2 : UInt16 := 0x1F5
/-- `ATA_DRIVE` -/
def ataDrive : UInt16 := 0x1F6
/-- `ATA_STATUS`, which is `ATA_COMMAND` when written -/
def ataStatus : UInt16 := 0x1F7
/-- `ATA_CONTROL` -/
def ataControl : UInt16 := 0x3F6

/-- `ATA_SR_BSY` -/
def srBsy : UInt8 := 0x80
/-- `ATA_SR_DRQ` -/
def srDrq : UInt8 := 0x08
/-- `ATA_SR_ERR` -/
def srErr : UInt8 := 0x01

/-- `ATA_CMD_READ` -/
def cmdRead : UInt8 := 0x20
/-- `ATA_CMD_WRITE` -/
def cmdWrite : UInt8 := 0x30
/-- The cache flush -/
def cmdFlush : UInt8 := 0xE7
/-- `ATA_CMD_IDENTIFY` -/
def cmdIdentify : UInt8 := 0xEC

/-- An access of a port -/
inductive Access
  | outb (port : UInt16) (value : UInt8)
  | outw (port value : UInt16)
  | inb (port : UInt16) (value : UInt8)
  | inw (port value : UInt16)
  deriving DecidableEq, Repr

/-! ## Words of a sector -/

/-- The byte at an index computed at run time -/
def byteAt (s : Sector) (k : Nat) : UInt8 := if h : k < 512 then s ⟨k, h⟩ else 0

/-- `s[i * 2] | s[i * 2 + 1] << 8` -/
def getWord (s : Sector) (i : Nat) : UInt16 := (byteAt s (i * 2)).toUInt16 ||| ((byteAt s (i * 2 + 1)).toUInt16 <<< 8)

/-- `s[i * 2] = word; s[i * 2 + 1] = word >> 8;` -/
def setWord (s : Sector) (i : Nat) (word : UInt16) : Sector := fun k =>
  if k.val = i * 2 then word.toUInt8 else if k.val = i * 2 + 1 then (word >>> 8).toUInt8 else s k

/-! ## The drive -/

/-- What the data port is for at the moment: nothing, or word `i` of a sector or of the identification -/
inductive Phase
  | idle
  | reading (sector i : Nat)
  | writing (sector i : Nat)
  | identifying (i : Nat)
  deriving DecidableEq, Repr

/-- The registers, the transfer in progress and the medium; what it will answer -/
structure Device where
  drive : UInt8
  count : UInt8
  lba0 : UInt8
  lba1 : UInt8
  lba2 : UInt8
  phase : Phase
  sectors : Nat → Sector
  identity : Nat → UInt16
  /-- The values of the status register, in the order they are read -/
  status : Nat → UInt8
  /-- How many of them have been read -/
  polls : Nat
  log : List Access

/-- The 28-bit address in the registers -/
def Device.address (d : Device) : Nat :=
  (d.drive &&& 0x0F).toNat * 2 ^ 24 + d.lba2.toNat * 2 ^ 16 + d.lba1.toNat * 2 ^ 8 + d.lba0.toNat

/-- The phase a command starts, if the master is selected; sectors are transferred one at a time, in LBA mode -/
def Device.command (d : Device) (c : UInt8) : Phase :=
  if d.drive &&& 0x10 ≠ 0 then .idle
  else if c = cmdIdentify then .identifying 0
  else if d.drive &&& 0x40 = 0 ∨ d.count ≠ 1 then .idle
  else if c = cmdRead then .reading d.address 0
  else if c = cmdWrite then .writing d.address 0
  else .idle

/-- What a byte does to the drive -/
def Device.latch (d : Device) (port : UInt16) (value : UInt8) : Device :=
  if port = ataSeccount then { d with count := value }
  else if port = ataLba0 then { d with lba0 := value }
  else if port = ataLba1 then { d with lba1 := value }
  else if port = ataLba2 then { d with lba2 := value }
  else if port = ataDrive then { d with drive := value }
  else if port = ataStatus then { d with phase := d.command value }
  else d

/-- The phase behind word `i`; a transfer has 256 words -/
def nextPhase (phase : Nat → Phase) (i : Nat) : Phase := if i + 1 < 256 then phase (i + 1) else .idle

/-- What a word at the data port does to the drive -/
def Device.take (d : Device) (word : UInt16) : Device :=
  match d.phase with
  | .writing sector i =>
    { d with
      sectors := Function.update d.sectors sector (setWord (d.sectors sector) i word)
      phase := nextPhase (.writing sector) i }
  | _ => d

/-- The word the drive presents at the data port, and the phase behind it -/
def Device.give (d : Device) : UInt16 × Phase :=
  match d.phase with
  | .reading sector i => (getWord (d.sectors sector) i, nextPhase (.reading sector) i)
  | .identifying i => (d.identity i, nextPhase .identifying i)
  | phase => (0, phase)

/-! ## `kernel.h` -/

/-- `outb` -/
def outb (port : UInt16) (value : UInt8) (d : Device) : Device :=
  { d.latch port value with log := d.log ++ [.outb port value] }

/-- `outw` -/
def outw (port value : UInt16) (d : Device) : Device :=
  { (if port = ataData then d.take value else d) with log := d.log ++ [.outw port value] }

/-- `inb` of the status register -/
def inbStatus (d : Device) : UInt8 × Device :=
  (d.status d.polls, { d with polls := d.polls + 1, log := d.log ++ [.inb ataStatus (d.status d.polls)] })

/-- `inb` of an address register -/
def inbLba (port : UInt16) (d : Device) : UInt8 × Device :=
  let value := if port = ataLba1 then d.lba1 else d.lba2
  (value, { d with log := d.log ++ [.inb port value] })

/-- `inw` of the data port -/
def inwData (d : Device) : UInt16 × Device :=
  (d.give.1, { d with phase := d.give.2, log := d.log ++ [.inw ataData d.give.1] })

/-! ## `ata.c` -/

/-- `present` and `sector_count` -/
structure Statics where
  present : Bool
  sectorCount : UInt32
  deriving DecidableEq, Repr

/-- `ata_wait`: whether it returned 0, with `timeout` polls left -/
def ataWait (mask value : UInt8) : (timeout : Nat) → Device → Bool × Device
  | 0, d => (false, d)
  | timeout + 1, d =>
    if (inbStatus d).1 &&& mask = value then (true, (inbStatus d).2) else ataWait mask value timeout (inbStatus d).2

/-- `uint32_t timeout = 1000000;` -/
@[irreducible] def pollLimit : Nat := 1000000

/-- The test at the head of `ata_transfer` -/
def accepts (st : Statics) (lba : UInt32) : Bool :=
  st.present && (lba &&& 0xF0000000 == 0) && !(st.sectorCount == 0) && (lba < st.sectorCount)

/-- The six register writes of `ata_transfer` -/
def issue (lba : UInt32) (command : UInt8) (d : Device) : Device :=
  let d := outb ataDrive ((0xE0 : UInt32) ||| ((lba >>> 24) &&& 0x0F)).toUInt8 d
  let d := outb ataSeccount 1 d
  let d := outb ataLba0 lba.toUInt8 d
  let d := outb ataLba1 (lba >>> 8).toUInt8 d
  let d := outb ataLba2 (lba >>> 16).toUInt8 d
  outb ataStatus command d

/-- `for (i = 0; i < 256; ++i)` sending a word of the buffer -/
def sendWords (buffer : Sector) (d : Device) : Device := loop (fun i => outw ataData (getWord buffer i)) 256 d

/-- `for (i = 0; i < 256; ++i)` receiving a word into the buffer -/
def receiveWords (buffer : Sector) (d : Device) : Sector × Device :=
  loop (fun i (s : Sector × Device) => (setWord s.1 i (inwData s.2).1, (inwData s.2).2)) 256 (buffer, d)

/-- The data phase of a write and what follows: the words, the cache flush and the last wait -/
def finishWrite (buffer : Sector) (d : Device) : Int × Device :=
  let waited := ataWait srBsy 0 pollLimit (outb ataStatus cmdFlush (sendWords buffer d))
  (if waited.1 then 0 else -1, waited.2)

/-- `ata_transfer` up to the data phase: whether it gets there -/
def startTransfer (st : Statics) (lba : UInt32) (write : Bool) (d : Device) : Bool × Device :=
  if !accepts st lba then (false, d)
  else
    let waited := ataWait srBsy 0 pollLimit d
    if !waited.1 then (false, waited.2)
    else ataWait (srBsy ||| srDrq ||| srErr) srDrq pollLimit (issue lba (if write then cmdWrite else cmdRead) waited.2)

/-- `ata_transfer`: the return code and the buffer -/
def ataTransfer (st : Statics) (lba : UInt32) (buffer : Sector) (write : Bool) (d : Device) : Int × Sector × Device :=
  let started := startTransfer st lba write d
  if !started.1 then (-1, buffer, started.2)
  else if write then ((finishWrite buffer started.2).1, buffer, (finishWrite buffer started.2).2)
  else (0, receiveWords buffer started.2)

/-- `ata_read28` -/
def ataRead28 (st : Statics) (lba : UInt32) (buffer : Sector) (d : Device) : Int × Sector × Device :=
  ataTransfer st lba buffer false d

/-- `ata_write28`; the buffer is left as it is -/
def ataWrite28 (st : Statics) (lba : UInt32) (buffer : Sector) (d : Device) : Int × Device :=
  ((ataTransfer st lba buffer true d).1, (ataTransfer st lba buffer true d).2.2)

/-- `io_wait` -/
def ioWait (d : Device) : Device := outb 0x80 0 d

/-- The register writes of `ata_primary_master_init` -/
def identify (d : Device) : Device :=
  let d := outb ataControl 2 d
  let d := outb ataDrive 0xA0 d
  let d := ioWait d
  let d := outb ataSeccount 0 d
  let d := outb ataLba0 0 d
  let d := outb ataLba1 0 d
  let d := outb ataLba2 0 d
  outb ataStatus cmdIdentify d

/-- The 256 words of the identification, of which `sectors_low` and `sectors_high` are kept -/
def identifyWords (d : Device) : UInt16 × UInt16 × Device :=
  loop (fun i (s : UInt16 × UInt16 × Device) =>
    (if i = 60 then (inwData s.2.2).1 else s.1, if i = 61 then (inwData s.2.2).1 else s.2.1, (inwData s.2.2).2))
    256 (0, 0, d)

/-- `ata_primary_master_init` behind the commands: whether there is an identification to read -/
def awaitIdentity (d : Device) : Bool × Device :=
  let status := inbStatus d
  if status.1 = 0 then (false, status.2)
  else
    let waited := ataWait srBsy 0 pollLimit status.2
    if !waited.1 then (false, waited.2)
    else
      let lba1 := inbLba ataLba1 waited.2
      if lba1.1 ≠ 0 then (false, lba1.2)
      else
        let lba2 := inbLba ataLba2 lba1.2
        if lba2.1 ≠ 0 then (false, lba2.2)
        else ataWait (srDrq ||| srErr) srDrq pollLimit lba2.2

/-- `ata_primary_master_init`: the return code and what it leaves in `present` and `sector_count` -/
def ataPrimaryMasterInit (d : Device) : Int × Statics × Device :=
  let found := awaitIdentity (identify d)
  if !found.1 then (-1, ⟨false, 0⟩, found.2)
  else
    let words := identifyWords found.2
    (0, ⟨true, (words.2.1.toUInt32 <<< 16) ||| words.1.toUInt32⟩, words.2.2)

/-! ## Words -/

theorem toNat_pair (low high : UInt8) :
    (low.toUInt16 ||| (high.toUInt16 <<< 8)).toNat = 256 * high.toNat + low.toNat := by
  have hlow := low.toNat_lt
  have hhigh := high.toNat_lt
  have hshift : (high.toUInt16 <<< 8).toNat = 2 ^ 8 * high.toNat := by
    rw [UInt16.toNat_shiftLeft, UInt8.toNat_toUInt16, show (8 : UInt16).toNat % 16 = 8 from rfl, Nat.shiftLeft_eq]
    omega
  rw [UInt16.toNat_or, hshift, UInt8.toNat_toUInt16, Nat.or_comm, ← Nat.two_pow_add_eq_or_of_lt hlow]

/-- The low byte of a word goes to the even place. -/
theorem toUInt8_getWord (s : Sector) (i : Nat) : (getWord s i).toUInt8 = byteAt s (i * 2) := by
  have hlow := (byteAt s (i * 2)).toNat_lt
  rw [← UInt8.toNat_inj, UInt16.toNat_toUInt8, getWord, toNat_pair]
  omega

theorem toUInt8_getWord_high (s : Sector) (i : Nat) : (getWord s i >>> 8).toUInt8 = byteAt s (i * 2 + 1) := by
  have hlow := (byteAt s (i * 2)).toNat_lt
  have hhigh := (byteAt s (i * 2 + 1)).toNat_lt
  rw [← UInt8.toNat_inj, UInt16.toNat_toUInt8, UInt16.toNat_shiftRight, getWord, toNat_pair,
    show (8 : UInt16).toNat % 16 = 8 from rfl, Nat.shiftRight_eq_div_pow]
  omega

/-- A sector of which the first `i` words come from another one -/
def mixed (new old : Sector) (i : Nat) : Sector := fun k => if k.val < i * 2 then new k else old k

theorem mixed_zero (new old : Sector) : mixed new old 0 = old := by
  funext k
  exact if_neg (Nat.not_lt_zero _)

theorem mixed_all (new old : Sector) : mixed new old 256 = new := by
  funext k
  exact if_pos k.isLt

/-- One more word -/
theorem setWord_mixed (new old : Sector) (i : Nat) :
    setWord (mixed new old i) i (getWord new i) = mixed new old (i + 1) := by
  funext k
  unfold setWord mixed
  rw [toUInt8_getWord, toUInt8_getWord_high]
  have hbyte : ∀ n, k.val = n → byteAt new n = new k := by
    rintro n rfl
    rw [byteAt, dif_pos k.isLt]
  split
  · rename_i heven
    rw [hbyte _ heven, if_pos (by omega)]
  · split
    · rename_i hodd
      rw [hbyte _ hodd, if_pos (by omega)]
    · by_cases hk : k.val < i * 2
      · rw [if_pos hk, if_pos (by omega)]
      · rw [if_neg hk, if_neg (by omega)]

/-! ## Polling -/

/-- Which of the next `timeout` values of a status register ends a wait -/
def firstPoll (mask value : UInt8) (status : Nat → UInt8) : (timeout start : Nat) → Option Nat
  | 0, _ => none
  | timeout + 1, start =>
    if status start &&& mask = value then some start else firstPoll mask value status timeout (start + 1)

/-- After the status register has been read up to value `j` -/
def Device.polledTo (d : Device) (j : Nat) : Device :=
  { d with polls := j, log := d.log ++ (List.range' d.polls (j - d.polls)).map fun i => .inb ataStatus (d.status i) }

@[simp] theorem polledTo_sectors (d : Device) (j : Nat) : (d.polledTo j).sectors = d.sectors := rfl

@[simp] theorem polledTo_phase (d : Device) (j : Nat) : (d.polledTo j).phase = d.phase := rfl

@[simp] theorem polledTo_status (d : Device) (j : Nat) : (d.polledTo j).status = d.status := rfl

@[simp] theorem polledTo_polls (d : Device) (j : Nat) : (d.polledTo j).polls = j := rfl

section Polling

variable {mask value : UInt8}

theorem firstPoll_eq_some {status : Nat → UInt8} {timeout start i : Nat}
    (h : firstPoll mask value status timeout start = some i) : start ≤ i ∧ status i &&& mask = value := by
  induction timeout generalizing start with
  | zero => cases h
  | succ timeout ih =>
    rw [firstPoll] at h
    split at h
    · rename_i hmatch
      obtain rfl := Option.some.inj h
      exact ⟨Nat.le_refl _, hmatch⟩
    · have := ih h
      exact ⟨by omega, this.2⟩

theorem polledTo_inbStatus (d : Device) {j : Nat} (hj : d.polls < j) : (inbStatus d).2.polledTo j = d.polledTo j := by
  obtain ⟨n, rfl⟩ : ∃ n, j = d.polls + 1 + n := ⟨j - (d.polls + 1), by omega⟩
  unfold Device.polledTo inbStatus
  have hcount : d.polls + 1 + n - d.polls = n + 1 := by omega
  simp [hcount, List.range'_succ]

/-- **A wait that ends** has read the status up to the value that ended it. -/
theorem ataWait_of_some {timeout i : Nat} {d : Device}
    (h : firstPoll mask value d.status timeout d.polls = some i) :
    ataWait mask value timeout d = (true, d.polledTo (i + 1)) := by
  induction timeout generalizing d with
  | zero => cases h
  | succ timeout ih =>
    rw [firstPoll] at h
    rw [ataWait]
    by_cases hmatch : d.status d.polls &&& mask = value
    · rw [if_pos hmatch] at h
      obtain rfl := Option.some.inj h
      rw [if_pos (show (inbStatus d).1 &&& mask = value from hmatch), ← polledTo_inbStatus d (Nat.lt_succ_self _)]
      simp [Device.polledTo, inbStatus]
    · rw [if_neg hmatch] at h
      have hge := (firstPoll_eq_some h).1
      rw [if_neg (show ¬ (inbStatus d).1 &&& mask = value from hmatch), ih h, polledTo_inbStatus d (by omega)]

/-- **A wait that times out** has read the status as often as it could. -/
theorem ataWait_of_none {timeout : Nat} {d : Device} (h : firstPoll mask value d.status timeout d.polls = none) :
    ataWait mask value timeout d = (false, d.polledTo (d.polls + timeout)) := by
  induction timeout generalizing d with
  | zero => simp [ataWait, Device.polledTo]
  | succ timeout ih =>
    rw [firstPoll] at h
    rw [ataWait]
    by_cases hmatch : d.status d.polls &&& mask = value
    · rw [if_pos hmatch] at h
      cases h
    · rw [if_neg hmatch] at h
      rw [if_neg (show ¬ (inbStatus d).1 &&& mask = value from hmatch), ih h, polledTo_inbStatus _ (by
        show d.polls < d.polls + 1 + timeout
        omega)]
      show (false, d.polledTo (d.polls + 1 + timeout)) = _
      rw [Nat.add_right_comm, Nat.add_assoc]

/-- Waiting moves on in the sequence of status values and does nothing else. -/
theorem ataWait_eq_polledTo (timeout : Nat) (d : Device) : ∃ j, (ataWait mask value timeout d).2 = d.polledTo j := by
  rcases h : firstPoll mask value d.status timeout d.polls with _ | i
  · exact ⟨_, by rw [ataWait_of_none h]⟩
  · exact ⟨_, by rw [ataWait_of_some h]⟩

end Polling

/-! ## The registers -/

/-- The byte for `ATA_DRIVE` -/
def driveByte (lba : UInt32) : UInt8 := ((0xE0 : UInt32) ||| ((lba >>> 24) &&& 0x0F)).toUInt8

theorem driveByte_eq (lba : UInt32) : driveByte lba = UInt8.ofNat (0xE0 + lba.toNat / 2 ^ 24 % 16) := by
  have hlow : ((lba >>> 24) &&& 0x0F).toNat = lba.toNat / 2 ^ 24 % 16 := by
    rw [UInt32.toNat_and, UInt32.toNat_shiftRight, show (24 : UInt32).toNat % 32 = 24 from rfl,
      show (0x0F : UInt32).toNat = 2 ^ 4 - 1 from rfl, Nat.and_two_pow_sub_one_eq_mod, Nat.shiftRight_eq_div_pow]
  have hor := Nat.two_pow_add_eq_or_of_lt (i := 4) (Nat.mod_lt (lba.toNat / 2 ^ 24) (by decide : 0 < 2 ^ 4)) 14
  rw [← UInt8.toNat_inj, driveByte, UInt32.toNat_toUInt8, UInt32.toNat_or, hlow,
    show (0xE0 : UInt32).toNat = 2 ^ 4 * 14 from rfl, ← hor, UInt8.toNat_ofNat']

/-- Master, LBA mode, and the four high bits of the address -/
theorem driveByte_bits (lba : UInt32) : driveByte lba &&& 0x10 = 0 ∧ driveByte lba &&& 0x40 ≠ 0 ∧
    (driveByte lba &&& 0x0F).toNat = lba.toNat / 2 ^ 24 % 16 := by
  have hall : ∀ r < 16, UInt8.ofNat (0xE0 + r) &&& 0x10 = 0 ∧ UInt8.ofNat (0xE0 + r) &&& 0x40 ≠ 0 ∧
      (UInt8.ofNat (0xE0 + r) &&& 0x0F).toNat = r := by decide
  rw [driveByte_eq]
  exact hall _ (Nat.mod_lt _ (by decide))

/-- The registers after the first five writes of `issue` -/
def Device.addressed (d : Device) (lba : UInt32) : Device :=
  { d with
    drive := driveByte lba
    count := 1
    lba0 := lba.toUInt8
    lba1 := (lba >>> 8).toUInt8
    lba2 := (lba >>> 16).toUInt8 }

/-- The port writes of `issue` -/
def issueLog (lba : UInt32) (command : UInt8) : List Access :=
  [.outb ataDrive (driveByte lba), .outb ataSeccount 1, .outb ataLba0 lba.toUInt8, .outb ataLba1 (lba >>> 8).toUInt8,
    .outb ataLba2 (lba >>> 16).toUInt8, .outb ataStatus command]

theorem issue_eq (lba : UInt32) (command : UInt8) (d : Device) : issue lba command d =
    { d.addressed lba with phase := (d.addressed lba).command command, log := d.log ++ issueLog lba command } := by
  simp [issue, issueLog, outb, Device.latch, Device.addressed, Device.command, Device.address, driveByte, ataDrive,
    ataSeccount, ataLba0, ataLba1, ataLba2, ataStatus]

/-- **The address in the registers** is the one that was asked for. -/
theorem address_addressed (d : Device) {lba : UInt32} (h : lba.toNat < 2 ^ 28) :
    (d.addressed lba).address = lba.toNat := by
  have hbits := (driveByte_bits lba).2.2
  unfold Device.address Device.addressed
  dsimp only
  rw [hbits, UInt32.toNat_toUInt8, UInt32.toNat_toUInt8, UInt32.toNat_toUInt8, UInt32.toNat_shiftRight,
    UInt32.toNat_shiftRight, show (8 : UInt32).toNat % 32 = 8 from rfl, show (16 : UInt32).toNat % 32 = 16 from rfl,
    Nat.shiftRight_eq_div_pow, Nat.shiftRight_eq_div_pow]
  omega

theorem command_addressed (d : Device) (lba : UInt32) :
    (d.addressed lba).command cmdRead = .reading (d.addressed lba).address 0 ∧
      (d.addressed lba).command cmdWrite = .writing (d.addressed lba).address 0 := by
  obtain ⟨hmaster, hmode, -⟩ := driveByte_bits lba
  have hselected : ¬ (d.addressed lba).drive &&& 0x10 ≠ 0 := not_not.mpr hmaster
  have hready : ¬ ((d.addressed lba).drive &&& 0x40 = 0 ∨ (d.addressed lba).count ≠ 1) := by
    rintro (h | h)
    · exact hmode h
    · exact h rfl
  constructor
  · rw [Device.command, if_neg hselected, if_neg (by decide), if_neg hready, if_pos rfl]
  · rw [Device.command, if_neg hselected, if_neg (by decide), if_neg hready, if_neg (by decide),
      if_pos rfl]

/-! ## Transfers -/

theorem lt_of_and_high_nibble {lba : UInt32} (h : lba &&& 0xF0000000 = 0) : lba.toNat < 2 ^ 28 := by
  have hlt := lba.toNat_lt
  have hshift : (lba.toNat &&& 0xF0000000) >>> 28 = lba.toNat / 2 ^ 28 % 2 ^ 4 := by
    rw [Nat.shiftRight_and_distrib, show 0xF0000000 >>> 28 = 2 ^ 4 - 1 from rfl, Nat.and_two_pow_sub_one_eq_mod,
      Nat.shiftRight_eq_div_pow]
  have hzero : lba.toNat &&& 0xF0000000 = 0 := by
    rw [← UInt32.toNat_inj, UInt32.toNat_and] at h
    exact h
  rw [hzero, Nat.zero_shiftRight] at hshift
  omega

/-- **Which addresses are served** -/
theorem accepts_iff (st : Statics) (lba : UInt32) :
    accepts st lba = true ↔ st.present = true ∧ lba.toNat < 2 ^ 28 ∧ lba.toNat < st.sectorCount.toNat := by
  constructor
  · intro h
    simp only [accepts, Bool.and_eq_true, beq_iff_eq, decide_eq_true_eq] at h
    obtain ⟨⟨⟨hpresent, hhigh⟩, -⟩, hcount⟩ := h
    exact ⟨hpresent, lt_of_and_high_nibble hhigh, UInt32.lt_iff_toNat_lt.mp hcount⟩
  · rintro ⟨hpresent, hlow, hcount⟩
    have hlt : lba < st.sectorCount := UInt32.lt_iff_toNat_lt.mpr hcount
    have hne : st.sectorCount ≠ 0 := by
      intro hzero
      rw [hzero] at hcount
      exact absurd hcount (Nat.not_lt_zero _)
    simp [accepts, hpresent, and_high_nibble_of_lt hlow, hne, hlt]

/-- **The data phase of a write**: the sector is replaced, word by word. -/
theorem sendWords_sectors (buffer : Sector) {d : Device} {sector : Nat} (h : d.phase = .writing sector 0) :
    (sendWords buffer d).sectors = Function.update d.sectors sector buffer := by
  have hall : (sendWords buffer d).sectors =
      Function.update d.sectors sector (mixed buffer (d.sectors sector) 256) ∧
        (sendWords buffer d).phase = if 256 < 256 then .writing sector 256 else .idle := by
    refine loop_keeps (fun i (d' : Device) =>
      d'.sectors = Function.update d.sectors sector (mixed buffer (d.sectors sector) i) ∧
        d'.phase = if i < 256 then .writing sector i else .idle) ?_ ?_
    · rw [mixed_zero, Function.update_eq_self]
      exact ⟨rfl, h⟩
    · intro i d' hi hd
      rw [if_pos hi] at hd
      have hout : outw ataData (getWord buffer i) d' =
          { d' with
            sectors := Function.update d'.sectors sector (setWord (d'.sectors sector) i (getWord buffer i))
            phase := nextPhase (.writing sector) i
            log := d'.log ++ [.outw ataData (getWord buffer i)] } := by
        simp [outw, Device.take, hd.2]
      rw [hout]
      refine ⟨?_, rfl⟩
      dsimp only
      rw [hd.1, Function.update_self, setWord_mixed, Function.update_idem]
  rw [hall.1, mixed_all]

/-- **The data phase of a read**: the buffer is replaced, word by word. -/
theorem receiveWords_buffer (buffer : Sector) {d : Device} {sector : Nat} (h : d.phase = .reading sector 0) :
    (receiveWords buffer d).1 = d.sectors sector := by
  have hall : (receiveWords buffer d).1 = mixed (d.sectors sector) buffer 256 ∧
      (receiveWords buffer d).2.sectors = d.sectors ∧
      (receiveWords buffer d).2.phase = if 256 < 256 then .reading sector 256 else .idle := by
    refine loop_keeps (fun i (s : Sector × Device) => s.1 = mixed (d.sectors sector) buffer i ∧
      s.2.sectors = d.sectors ∧ s.2.phase = if i < 256 then .reading sector i else .idle) ?_ ?_
    · exact ⟨(mixed_zero _ _).symm, rfl, h⟩
    · intro i s hi hs
      rw [if_pos hi] at hs
      have hgive : s.2.give = (getWord (d.sectors sector) i, nextPhase (.reading sector) i) := by
        simp [Device.give, hs.2.2, hs.2.1]
      refine ⟨?_, hs.2.1, ?_⟩
      · show setWord s.1 i s.2.give.1 = _
        rw [hgive, hs.1, setWord_mixed]
      · show s.2.give.2 = _
        rw [hgive]
        rfl
  rw [hall.1, mixed_all]

/-- The phase a transfer starts -/
def transferPhase (lba : UInt32) (write : Bool) : Phase :=
  if write then .writing lba.toNat 0 else .reading lba.toNat 0

section Start

variable {st : Statics} {lba : UInt32} {write : Bool} {d : Device}

/-- The command has been issued, after value `i` of the status register. -/
def Device.issued (d : Device) (lba : UInt32) (write : Bool) (i : Nat) : Device :=
  issue lba (if write then cmdWrite else cmdRead) (d.polledTo (i + 1))

@[simp] theorem issued_sectors (i : Nat) : (d.issued lba write i).sectors = d.sectors := by
  rw [Device.issued, issue_eq]
  rfl

@[simp] theorem issued_status (i : Nat) : (d.issued lba write i).status = d.status := by
  rw [Device.issued, issue_eq]
  rfl

@[simp] theorem issued_polls (i : Nat) : (d.issued lba write i).polls = i + 1 := by
  rw [Device.issued, issue_eq]
  rfl

theorem issued_phase (h : lba.toNat < 2 ^ 28) (i : Nat) :
    (d.issued lba write i).phase = transferPhase lba write := by
  have haddress := address_addressed (d.polledTo (i + 1)) h
  obtain ⟨hread, hwrite⟩ := command_addressed (d.polledTo (i + 1)) lba
  rw [Device.issued, issue_eq]
  cases write with
  | false => rw [haddress] at hread; exact hread
  | true => rw [haddress] at hwrite; exact hwrite

theorem startTransfer_refused (h : ¬ accepts st lba = true) : startTransfer st lba write d = (false, d) := by
  rw [startTransfer, if_pos (by simp [h])]

/-- The second half, behind the first wait -/
theorem startTransfer_accepted {waited : Bool × Device} (h : accepts st lba = true)
    (hwait : ataWait srBsy 0 pollLimit d = waited) : startTransfer st lba write d =
      if !waited.1 then (false, waited.2)
      else ataWait (srBsy ||| srDrq ||| srErr) srDrq pollLimit
        (issue lba (if write then cmdWrite else cmdRead) waited.2) := by
  subst hwait
  rw [startTransfer, if_neg (by simp [h])]

/-- Always busy -/
theorem startTransfer_busy (h : accepts st lba = true) (hfirst : firstPoll srBsy 0 d.status pollLimit d.polls = none) :
    startTransfer st lba write d = (false, d.polledTo (d.polls + pollLimit)) := by
  rw [startTransfer_accepted h (ataWait_of_none hfirst)]
  simp

theorem startTransfer_issued {i : Nat} (h : accepts st lba = true)
    (hfirst : firstPoll srBsy 0 d.status pollLimit d.polls = some i) : startTransfer st lba write d =
      ataWait (srBsy ||| srDrq ||| srErr) srDrq pollLimit (d.issued lba write i) := by
  rw [startTransfer_accepted h (ataWait_of_some hfirst)]
  simp [Device.issued]

/-- No data request -/
theorem startTransfer_silent {i : Nat} (h : accepts st lba = true)
    (hfirst : firstPoll srBsy 0 d.status pollLimit d.polls = some i)
    (hsecond : firstPoll (srBsy ||| srDrq ||| srErr) srDrq d.status pollLimit (i + 1) = none) :
    startTransfer st lba write d = (false, (d.issued lba write i).polledTo (i + 1 + pollLimit)) := by
  have hwait : firstPoll (srBsy ||| srDrq ||| srErr) srDrq (d.issued lba write i).status pollLimit
      (d.issued lba write i).polls = none := by
    rw [issued_status, issued_polls, hsecond]
  rw [startTransfer_issued h hfirst, ataWait_of_none hwait, issued_polls]

/-- **The drive is ready for the data.** -/
theorem startTransfer_ready {i j : Nat} (h : accepts st lba = true)
    (hfirst : firstPoll srBsy 0 d.status pollLimit d.polls = some i)
    (hsecond : firstPoll (srBsy ||| srDrq ||| srErr) srDrq d.status pollLimit (i + 1) = some j) :
    startTransfer st lba write d = (true, (d.issued lba write i).polledTo (j + 1)) := by
  have hwait : firstPoll (srBsy ||| srDrq ||| srErr) srDrq (d.issued lba write i).status pollLimit
      (d.issued lba write i).polls = some j := by
    rw [issued_status, issued_polls, hsecond]
  rw [startTransfer_issued h hfirst, ataWait_of_some hwait]

/-- What the data port is for then -/
theorem ready_phase (h : accepts st lba = true) (i j : Nat) :
    ((d.issued lba write i).polledTo (j + 1)).phase = transferPhase lba write := by
  rw [polledTo_phase, issued_phase ((accepts_iff st lba).mp h).2.1]

/-- What it takes to get to the data phase -/
theorem ready_of_startTransfer (h : (startTransfer st lba write d).1 = true) : accepts st lba = true ∧
    ∃ i j, startTransfer st lba write d = (true, (d.issued lba write i).polledTo (j + 1)) := by
  by_cases haccepts : accepts st lba = true
  · refine ⟨haccepts, ?_⟩
    rcases hfirst : firstPoll srBsy 0 d.status pollLimit d.polls with _ | i
    · rw [startTransfer_busy haccepts hfirst] at h
      cases h
    · rcases hsecond : firstPoll (srBsy ||| srDrq ||| srErr) srDrq d.status pollLimit (i + 1) with _ | j
      · rw [startTransfer_silent haccepts hfirst hsecond] at h
        cases h
      · exact ⟨i, j, startTransfer_ready haccepts hfirst hsecond⟩
  · rw [startTransfer_refused haccepts] at h
    cases h

end Start

/-! ## The round trip -/

section Sectors

variable {st : Statics} {lba : UInt32} {buffer : Sector} {d : Device}

theorem ataTransfer_refused (h : ¬ accepts st lba = true) (write : Bool) :
    ataTransfer st lba buffer write d = (-1, buffer, d) := by
  rw [ataTransfer, startTransfer_refused h]
  simp

theorem ataTransfer_failed {write : Bool} (h : (startTransfer st lba write d).1 = false) :
    ataTransfer st lba buffer write d = (-1, buffer, (startTransfer st lba write d).2) := by
  rw [ataTransfer, h]
  simp

theorem ataTransfer_ready {d' : Device} {write : Bool} (h : startTransfer st lba write d = (true, d')) :
    ataTransfer st lba buffer write d =
      if write then ((finishWrite buffer d').1, buffer, (finishWrite buffer d').2)
      else (0, receiveWords buffer d') := by
  rw [ataTransfer, h]
  simp

theorem ataWrite28_finish {d' : Device} (h : startTransfer st lba true d = (true, d')) :
    ataWrite28 st lba buffer d = finishWrite buffer d' := by
  rw [ataWrite28, ataTransfer_ready h, if_pos rfl]

@[simp] theorem outb_command_sectors (d : Device) (c : UInt8) : (outb ataStatus c d).sectors = d.sectors := rfl

@[simp] theorem outb_command_status (d : Device) (c : UInt8) : (outb ataStatus c d).status = d.status := rfl

@[simp] theorem outb_command_polls (d : Device) (c : UInt8) : (outb ataStatus c d).polls = d.polls := rfl

theorem finishWrite_sectors {sector : Nat} (h : d.phase = .writing sector 0) :
    (finishWrite buffer d).2.sectors = Function.update d.sectors sector buffer := by
  obtain ⟨j, hwait⟩ := @ataWait_eq_polledTo srBsy 0 pollLimit (outb ataStatus cmdFlush (sendWords buffer d))
  rw [finishWrite, hwait, polledTo_sectors, outb_command_sectors, sendWords_sectors buffer h]

/-- **A write that returns 0** has stored its sector, and nothing else. -/
theorem ataWrite28_sectors (h : (ataWrite28 st lba buffer d).1 = 0) :
    (ataWrite28 st lba buffer d).2.sectors = Function.update d.sectors lba.toNat buffer := by
  cases hstarted : (startTransfer st lba true d).1 with
  | false =>
    rw [ataWrite28, ataTransfer_failed hstarted] at h
    cases h
  | true =>
    obtain ⟨haccepts, i, j, hready⟩ := ready_of_startTransfer hstarted
    have hphase : ((d.issued lba true i).polledTo (j + 1)).phase = .writing lba.toNat 0 := ready_phase haccepts i j
    rw [ataWrite28_finish hready, finishWrite_sectors hphase]
    simp

/-- **A read that returns 0** returns the sector. -/
theorem ataRead28_buffer (h : (ataRead28 st lba buffer d).1 = 0) :
    (ataRead28 st lba buffer d).2.1 = d.sectors lba.toNat := by
  cases hstarted : (startTransfer st lba false d).1 with
  | false =>
    rw [ataRead28, ataTransfer_failed hstarted] at h
    cases h
  | true =>
    obtain ⟨haccepts, i, j, hready⟩ := ready_of_startTransfer hstarted
    have hphase : ((d.issued lba false i).polledTo (j + 1)).phase = .reading lba.toNat 0 := ready_phase haccepts i j
    rw [ataRead28, ataTransfer_ready hready]
    simp [receiveWords_buffer buffer hphase]

/-! How a write ends depends on three waits. -/

theorem sendWords_waiting (buffer : Sector) (d : Device) :
    (sendWords buffer d).status = d.status ∧ (sendWords buffer d).polls = d.polls := by
  refine loop_keeps (fun _ (d' : Device) => d'.status = d.status ∧ d'.polls = d.polls) ⟨rfl, rfl⟩ ?_
  intro i d' hi hd
  rw [outw, if_pos rfl, Device.take]
  split <;> exact hd

/-- Behind the data phase, with the flush issued -/
def Device.flushed (d : Device) (lba : UInt32) (buffer : Sector) (i j : Nat) : Device :=
  outb ataStatus cmdFlush (sendWords buffer ((d.issued lba true i).polledTo (j + 1)))

@[simp] theorem flushed_status (i j : Nat) : (d.flushed lba buffer i j).status = d.status := by
  rw [Device.flushed, outb_command_status, (sendWords_waiting _ _).1, polledTo_status, issued_status]

@[simp] theorem flushed_polls (i j : Nat) : (d.flushed lba buffer i j).polls = j + 1 := by
  rw [Device.flushed, outb_command_polls, (sendWords_waiting _ _).2, polledTo_polls]

section Polled

variable {i j : Nat} (h : accepts st lba = true) (hfirst : firstPoll srBsy 0 d.status pollLimit d.polls = some i)
  (hsecond : firstPoll (srBsy ||| srDrq ||| srErr) srDrq d.status pollLimit (i + 1) = some j)
include h hfirst hsecond

theorem ataWrite28_ready {waited : Bool × Device}
    (hwait : ataWait srBsy 0 pollLimit (d.flushed lba buffer i j) = waited) :
    ataWrite28 st lba buffer d = (if waited.1 then 0 else -1, waited.2) := by
  subst hwait
  rw [ataWrite28_finish (startTransfer_ready h hfirst hsecond), finishWrite, Device.flushed]

/-- **A write returns 0** at the first status value behind the flush that is not busy. -/
theorem ataWrite28_stored {k : Nat} (hthird : firstPoll srBsy 0 d.status pollLimit (j + 1) = some k) :
    ataWrite28 st lba buffer d = (0, (d.flushed lba buffer i j).polledTo (k + 1)) := by
  have hwait : firstPoll srBsy 0 (d.flushed lba buffer i j).status pollLimit (d.flushed lba buffer i j).polls
      = some k := by
    rw [flushed_status, flushed_polls, hthird]
  rw [ataWrite28_ready h hfirst hsecond (ataWait_of_some hwait)]
  simp

theorem ataWrite28_unconfirmed (hthird : firstPoll srBsy 0 d.status pollLimit (j + 1) = none) :
    ataWrite28 st lba buffer d = (-1, (d.flushed lba buffer i j).polledTo (j + 1 + pollLimit)) := by
  have hwait : firstPoll srBsy 0 (d.flushed lba buffer i j).status pollLimit (d.flushed lba buffer i j).polls
      = none := by
    rw [flushed_status, flushed_polls, hthird]
  rw [ataWrite28_ready h hfirst hsecond (ataWait_of_none hwait), flushed_polls]
  simp

theorem ataRead28_ready :
    ataRead28 st lba buffer d = (0, receiveWords buffer ((d.issued lba false i).polledTo (j + 1))) := by
  rw [ataRead28, ataTransfer_ready (startTransfer_ready h hfirst hsecond)]
  simp

end Polled

/-! What the drive will present is its own business. -/

theorem ataWait_status (mask value : UInt8) (timeout : Nat) (d : Device) :
    (ataWait mask value timeout d).2.status = d.status := by
  obtain ⟨j, hwait⟩ := @ataWait_eq_polledTo mask value timeout d
  rw [hwait, polledTo_status]

theorem receiveWords_status (buffer : Sector) (d : Device) : (receiveWords buffer d).2.status = d.status :=
  loop_keeps (fun _ (s : Sector × Device) => s.2.status = d.status) rfl fun _ _ _ hs => hs

theorem startTransfer_status (write : Bool) : (startTransfer st lba write d).2.status = d.status := by
  by_cases h : accepts st lba = true
  · rw [startTransfer_accepted h rfl]
    split
    · rw [ataWait_status]
    · rw [ataWait_status, issue_eq]
      exact ataWait_status _ _ _ _
  · rw [startTransfer_refused h]

theorem ataTransfer_status (write : Bool) : (ataTransfer st lba buffer write d).2.2.status = d.status := by
  have hstart := @startTransfer_status st lba d write
  rw [ataTransfer]
  split
  · exact hstart
  · split
    · rw [finishWrite, ataWait_status, outb_command_status, (sendWords_waiting _ _).1, hstart]
    · rw [receiveWords_status, hstart]

end Sectors

end MinOS.Ata.Ports
