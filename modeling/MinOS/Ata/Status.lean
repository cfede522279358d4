/-
# MinOS.Ata.Status — what a write that returns 0 says about the drive.

`ata_write28` waits three times: until the drive is not busy, until it requests the data, and, behind the data and the
cache flush, until it is not busy again. The second wait looks at ERR, the last one does not: a drive that ends the
write with an error is taken for one that stored it. This file says for which status values that happens, and it shows
that the drive of `MinOS.Ata`, which decides each write at once, is the drive at the ports.
-/
import MinOS.Ata.Ports

namespace MinOS.Ata.Ports

open Raster (loop_keeps)

/-! ## The log of a write -/

/-- Whether an access moves a word of a sector to the drive -/
def Access.isData : Access → Bool
  | .outw port _ => port == ataData
  | _ => false

/-- The words of a sector at the data port -/
def dataLog (buffer : Sector) : List Access := (List.range 256).map fun i => .outw ataData (getWord buffer i)

/-- `n` values of the status register -/
def pollLog (status : Nat → UInt8) (start n : Nat) : List Access :=
  (List.range' start n).map fun i => .inb ataStatus (status i)

/-- The accesses before the first word, the words, and the accesses behind them -/
def beforeData (log : List Access) : List Access := log.takeWhile fun a => !a.isData
def dataOf (log : List Access) : List Access := (log.dropWhile fun a => !a.isData).takeWhile Access.isData
def behindData (log : List Access) : List Access := (log.dropWhile fun a => !a.isData).dropWhile Access.isData

/-- **The drive has taken a sector without an error**: it requested the data, the words are those of the buffer, and
behind them it was seen not busy with the error bit clear. -/
structure Confirmed (buffer : Sector) (log : List Access) : Prop where
  requested : ∃ status, (beforeData log).getLast? = some (.inb ataStatus status) ∧
    status &&& (srBsy ||| srDrq ||| srErr) = srDrq
  sent : dataOf log = dataLog buffer
  confirmed : ∃ status, .inb ataStatus status ∈ behindData log ∧ status &&& (srBsy ||| srErr) = 0

/-- What a call has added to the log -/
def Device.since (d d' : Device) : List Access := d'.log.drop d.log.length

theorem isData_dataLog (buffer : Sector) : ∀ a ∈ dataLog buffer, a.isData = true := by
  intro a ha
  obtain ⟨i, -, rfl⟩ := List.mem_map.mp ha
  rfl

theorem isData_pollLog (status : Nat → UInt8) (start n : Nat) : ∀ a ∈ pollLog status start n, a.isData = false := by
  intro a ha
  obtain ⟨i, -, rfl⟩ := List.mem_map.mp ha
  rfl

theorem isData_issueLog (lba : UInt32) (command : UInt8) : ∀ a ∈ issueLog lba command, a.isData = false := by
  simp [issueLog, Access.isData]

section Cut

variable {before data behind : List Access} (hbefore : ∀ a ∈ before, a.isData = false)
  (hdata : ∀ a ∈ data, a.isData = true) (hne : data ≠ []) (hbehind : ∀ a ∈ behind, a.isData = false)
include hbefore hdata hne

theorem dropWhile_cut : (before ++ (data ++ behind)).dropWhile (fun a => !a.isData) = data ++ behind := by
  rw [List.dropWhile_append_of_pos (by simpa using hbefore)]
  cases data with
  | nil => exact absurd rfl hne
  | cons a data =>
    rw [List.cons_append, List.dropWhile_cons_of_neg (by simpa using hdata a List.mem_cons_self)]

theorem beforeData_cut : beforeData (before ++ (data ++ behind)) = before := by
  rw [beforeData, List.takeWhile_append_of_pos (by simpa using hbefore)]
  cases data with
  | nil => exact absurd rfl hne
  | cons a data =>
    rw [List.cons_append, List.takeWhile_cons_of_neg (by simpa using hdata a List.mem_cons_self), List.append_nil]

include hbehind

theorem dataOf_cut : dataOf (before ++ (data ++ behind)) = data := by
  rw [dataOf, dropWhile_cut hbefore hdata hne, List.takeWhile_append_of_pos hdata]
  cases behind with
  | nil => simp
  | cons a behind => rw [List.takeWhile_cons_of_neg (by simpa using hbehind a List.mem_cons_self), List.append_nil]

theorem behindData_cut : behindData (before ++ (data ++ behind)) = behind := by
  rw [behindData, dropWhile_cut hbefore hdata hne, List.dropWhile_append_of_pos hdata]
  cases behind with
  | nil => rfl
  | cons a behind => rw [List.dropWhile_cons_of_neg (by simpa using hbehind a List.mem_cons_self)]

end Cut

theorem dataLog_ne_nil (buffer : Sector) : dataLog buffer ≠ [] := by
  simp [dataLog]

theorem sendWords_log (buffer : Sector) (d : Device) : (sendWords buffer d).log = d.log ++ dataLog buffer := by
  refine loop_keeps (fun i (d' : Device) =>
    d'.log = d.log ++ (List.range i).map fun i => .outw ataData (getWord buffer i)) ?_ ?_
  · simp
  · intro i d' hi hd
    show d'.log ++ [.outw ataData (getWord buffer i)] = _
    rw [hd, List.range_succ, List.map_append, List.map_singleton, List.append_assoc]

theorem polledTo_log (d : Device) (j : Nat) :
    (d.polledTo j).log = d.log ++ pollLog d.status d.polls (j - d.polls) := rfl

theorem issued_log (d : Device) (lba : UInt32) (i : Nat) : (d.issued lba true i).log =
    d.log ++ pollLog d.status d.polls (i + 1 - d.polls) ++ issueLog lba cmdWrite := by
  rw [Device.issued, issue_eq]
  rfl

/-- The accesses of a write up to the data -/
def startLog (d : Device) (lba : UInt32) (i j : Nat) : List Access :=
  pollLog d.status d.polls (i + 1 - d.polls) ++ issueLog lba cmdWrite ++ pollLog d.status (i + 1) (j - i)

/-- The accesses behind it -/
def endLog (d : Device) (j k : Nat) : List Access :=
  .outb ataStatus cmdFlush :: pollLog d.status (j + 1) (k - j)

theorem since_flushed (d : Device) (lba : UInt32) (buffer : Sector) (i j k : Nat) :
    d.since ((d.flushed lba buffer i j).polledTo (k + 1)) =
      startLog d lba i j ++ (dataLog buffer ++ endLog d j k) := by
  have hcount : ∀ m n : Nat, m + 1 - (n + 1) = m - n := by omega
  have hlog : (d.flushed lba buffer i j).log = d.log ++ startLog d lba i j ++ dataLog buffer ++
      [.outb ataStatus cmdFlush] := by
    rw [Device.flushed]
    show (sendWords buffer _).log ++ [_] = _
    rw [sendWords_log, polledTo_log, issued_log, issued_status, issued_polls, hcount]
    simp [startLog]
  rw [Device.since, polledTo_log, flushed_status, flushed_polls, hlog, hcount]
  simp [endLog]

/-! ## The three waits -/

theorem firstPoll_least {mask value : UInt8} {status : Nat → UInt8} {timeout start i : Nat}
    (h : firstPoll mask value status timeout start = some i) {m : Nat} (hm : start ≤ m) (hmi : m < i) :
    status m &&& mask ≠ value := by
  induction timeout generalizing start with
  | zero => cases h
  | succ timeout ih =>
    rw [firstPoll] at h
    split at h
    · obtain rfl := Option.some.inj h
      omega
    · rename_i hmatch
      rcases Nat.lt_or_eq_of_le hm with hlt | rfl
      · exact ih h hlt
      · exact hmatch

/-- The waits of a write that gets through, and the status values that end them -/
structure Through (status : Nat → UInt8) (start i j k : Nat) : Prop where
  first : firstPoll srBsy 0 status pollLimit start = some i
  second : firstPoll (srBsy ||| srDrq ||| srErr) srDrq status pollLimit (i + 1) = some j
  third : firstPoll srBsy 0 status pollLimit (j + 1) = some k

/-- What the drive makes of a write, and how far it has got in its status values then -/
def decision (status : Nat → UInt8) (start : Nat) : WriteOutcome × Nat :=
  match firstPoll srBsy 0 status pollLimit start with
  | none => (.refused, start + pollLimit)
  | some i =>
    match firstPoll (srBsy ||| srDrq ||| srErr) srDrq status pollLimit (i + 1) with
    | none => (.refused, i + 1 + pollLimit)
    | some j =>
      match firstPoll srBsy 0 status pollLimit (j + 1) with
      | none => (.unconfirmed, j + 1 + pollLimit)
      | some k => (.stored, k + 1)

section Write

variable {st : Statics} {lba : UInt32} {buffer : Sector} {d : Device}

theorem flushed_sectors (h : accepts st lba = true) (i j : Nat) :
    (d.flushed lba buffer i j).sectors = Function.update d.sectors lba.toNat buffer := by
  have hphase : ((d.issued lba true i).polledTo (j + 1)).phase = .writing lba.toNat 0 := ready_phase h i j
  rw [Device.flushed, outb_command_sectors, sendWords_sectors buffer hphase, polledTo_sectors, issued_sectors]

/-- What a served write leaves of the drive: its decision, and where it has got in its status values -/
structure Outcome (d d' : Device) (lba : UInt32) (buffer : Sector) (outcome : WriteOutcome) : Prop where
  decided : decision d.status d.polls = (outcome, d'.polls)
  status : d'.status = d.status
  sectors : d'.sectors = if outcome = .refused then d.sectors else Function.update d.sectors lba.toNat buffer

/-- **The ways a served write ends** -/
theorem ataWrite28_cases (h : accepts st lba = true) :
    ((ataWrite28 st lba buffer d).1 = -1 ∧ Outcome d (ataWrite28 st lba buffer d).2 lba buffer .refused) ∨
    ((ataWrite28 st lba buffer d).1 = -1 ∧ Outcome d (ataWrite28 st lba buffer d).2 lba buffer .unconfirmed) ∨
    (∃ i j k, Through d.status d.polls i j k ∧
      ataWrite28 st lba buffer d = (0, (d.flushed lba buffer i j).polledTo (k + 1)) ∧
      Outcome d (ataWrite28 st lba buffer d).2 lba buffer .stored) := by
  have hrefused : ∀ d', startTransfer st lba true d = (false, d') → ataWrite28 st lba buffer d = (-1, d') := by
    intro d' hstart
    rw [ataWrite28, ataTransfer_failed (by rw [hstart]), hstart]
  rcases hfirst : firstPoll srBsy 0 d.status pollLimit d.polls with _ | i
  · left
    rw [hrefused _ (startTransfer_busy h hfirst)]
    exact ⟨rfl, by rw [decision, hfirst]; rfl, rfl, rfl⟩
  rcases hsecond : firstPoll (srBsy ||| srDrq ||| srErr) srDrq d.status pollLimit (i + 1) with _ | j
  · left
    rw [hrefused _ (startTransfer_silent h hfirst hsecond)]
    exact ⟨rfl, by simp [decision, hfirst, hsecond], by simp, by simp⟩
  rcases hthird : firstPoll srBsy 0 d.status pollLimit (j + 1) with _ | k
  · right
    left
    rw [ataWrite28_unconfirmed h hfirst hsecond hthird]
    exact ⟨rfl, by simp [decision, hfirst, hsecond, hthird], by simp, by simp [flushed_sectors h]⟩
  · right
    right
    rw [ataWrite28_stored h hfirst hsecond hthird]
    exact ⟨i, j, k, ⟨hfirst, hsecond, hthird⟩, rfl, by simp [decision, hfirst, hsecond, hthird], by simp,
      by simp [flushed_sectors h]⟩

end Write

/-! ## What a return of 0 says -/

theorem and_busy_or_error (status : UInt8) :
    status &&& (srBsy ||| srErr) = 0 ↔ status &&& srBsy = 0 ∧ status &&& srErr = 0 := by
  rw [← UInt8.or_eq_zero_iff, ← UInt8.toNat_inj, ← UInt8.toNat_inj, UInt8.toNat_and, UInt8.toNat_or, UInt8.toNat_or,
    UInt8.toNat_and, UInt8.toNat_and, Nat.and_or_distrib_left]

/-- A status value ends the last wait with an error, and the write returns 0 all the same. -/
def Unreported (st : Statics) (lba : UInt32) (d : Device) : Prop :=
  accepts st lba = true ∧ ∃ i j k, Through d.status d.polls i j k ∧ d.status k &&& srErr ≠ 0

section Returned

variable {st : Statics} {lba : UInt32} {buffer : Sector} {d : Device} {i j k : Nat}

theorem Through.unique {status : Nat → UInt8} {start i' j' k' : Nat} (h : Through status start i j k)
    (h' : Through status start i' j' k') : k = k' := by
  obtain rfl := Option.some.inj (h.first.symm.trans h'.first)
  obtain rfl := Option.some.inj (h.second.symm.trans h'.second)
  exact Option.some.inj (h.third.symm.trans h'.third)

theorem mem_endLog {status : UInt8} (hjk : j < k) : .inb ataStatus status ∈ endLog d j k ↔
    ∃ m, j < m ∧ m ≤ k ∧ d.status m = status := by
  simp only [endLog, pollLog, List.mem_cons, List.mem_map, List.mem_range'_1, reduceCtorEq, false_or]
  constructor
  · rintro ⟨m, ⟨hlow, hhigh⟩, heq⟩
    exact ⟨m, by omega, by omega, (Access.inb.inj heq).2⟩
  · rintro ⟨m, hlow, hhigh, rfl⟩
    exact ⟨m, ⟨by omega, by omega⟩, rfl⟩

theorem getLast?_startLog (hij : i < j) :
    (startLog d lba i j).getLast? = some (.inb ataStatus (d.status j)) := by
  obtain ⟨n, rfl⟩ : ∃ n, j = i + 1 + n := ⟨j - (i + 1), by omega⟩
  have hcount : i + 1 + n - i = n + 1 := by omega
  rw [startLog, hcount, pollLog, pollLog, List.range'_concat]
  simp

/-- **Behind a write that got through**, the status value that ended the last wait is the one that tells. -/
theorem confirmed_iff (h : Through d.status d.polls i j k) :
    Confirmed buffer (d.since ((d.flushed lba buffer i j).polledTo (k + 1))) ↔ d.status k &&& srErr = 0 := by
  obtain ⟨hij, hrequest⟩ := firstPoll_eq_some h.second
  obtain ⟨hjk, hidle⟩ := firstPoll_eq_some h.third
  have hstart : ∀ a ∈ startLog d lba i j, a.isData = false := by
    intro a ha
    simp only [startLog, List.mem_append] at ha
    rcases ha with (ha | ha) | ha
    · exact isData_pollLog _ _ _ a ha
    · exact isData_issueLog _ _ a ha
    · exact isData_pollLog _ _ _ a ha
  have hend : ∀ a ∈ endLog d j k, a.isData = false := by
    intro a ha
    rcases List.mem_cons.mp ha with rfl | ha
    · rfl
    · exact isData_pollLog _ _ _ a ha
  have hdata := isData_dataLog buffer
  have hne := dataLog_ne_nil buffer
  rw [since_flushed]
  constructor
  · rintro ⟨-, -, status, hmem, hclear⟩
    rw [behindData_cut hstart hdata hne hend, mem_endLog (by omega)] at hmem
    obtain ⟨m, hlow, hhigh, rfl⟩ := hmem
    rw [and_busy_or_error] at hclear
    -- every value before the last one was busy
    rcases Nat.lt_or_eq_of_le hhigh with hlt | rfl
    · exact absurd hclear.1 (firstPoll_least h.third hlow hlt)
    · exact hclear.2
  · intro hclear
    refine ⟨⟨d.status j, ?_, hrequest⟩, dataOf_cut hstart hdata hne hend, d.status k, ?_, ?_⟩
    · rw [beforeData_cut hstart hdata hne, getLast?_startLog (by omega)]
    · rw [behindData_cut hstart hdata hne hend, mem_endLog (by omega)]
      exact ⟨k, by omega, Nat.le_refl k, rfl⟩
    · exact (and_busy_or_error _).mpr ⟨hidle, hclear⟩

/-- A write that returns 0 was served and got through. -/
theorem through_of_ataWrite28 (h : (ataWrite28 st lba buffer d).1 = 0) : accepts st lba = true ∧
    ∃ i j k, Through d.status d.polls i j k ∧
      (ataWrite28 st lba buffer d).2 = (d.flushed lba buffer i j).polledTo (k + 1) := by
  by_cases haccepts : accepts st lba = true
  · refine ⟨haccepts, ?_⟩
    rcases @ataWrite28_cases st lba buffer d haccepts with ⟨hrc, -⟩ | ⟨hrc, -⟩ | ⟨i, j, k, hthrough, heq, -⟩
    · rw [hrc] at h
      cases h
    · rw [hrc] at h
      cases h
    · exact ⟨i, j, k, hthrough, by rw [heq]⟩
  · rw [ataWrite28, ataTransfer_refused haccepts] at h
    cases h

/-- **What a return of 0 says**: the drive has taken the sector without an error, unless it was one that goes
unreported. -/
theorem confirmed_of_ataWrite28 (h : (ataWrite28 st lba buffer d).1 = 0) :
    Confirmed buffer (d.since (ataWrite28 st lba buffer d).2) ↔ ¬ Unreported st lba d := by
  obtain ⟨haccepts, i, j, k, hthrough, heq⟩ := through_of_ataWrite28 h
  rw [heq, confirmed_iff hthrough]
  constructor
  · rintro hclear ⟨-, i', j', k', hthrough', herror⟩
    rw [← hthrough.unique hthrough'] at herror
    exact herror hclear
  · intro hreported
    by_contra herror
    exact hreported ⟨haccepts, i, j, k, hthrough, herror⟩

theorem ataWrite28_of_unreported (h : Unreported st lba d) : (ataWrite28 st lba buffer d).1 = 0 := by
  obtain ⟨haccepts, i, j, k, hthrough, -⟩ := h
  rw [ataWrite28_stored haccepts hthrough.first hthrough.second hthrough.third]

end Returned

/-! ## The drive that decides at once -/

/-- The decisions on the next `n` writes -/
def decisions (status : Nat → UInt8) : (n start : Nat) → List WriteOutcome
  | 0, _ => []
  | n + 1, start => (decision status start).1 :: decisions status n (decision status start).2

/-- A drive of `MinOS.Ata` that is this one, for the next `n` writes -/
structure Backs (st : Statics) (d : Device) (n : Nat) (e : Drive) : Prop where
  present : e.present = st.present
  sectorCount : e.sectorCount = st.sectorCount
  sectors : e.sectors = d.sectors
  writeScript : e.writeScript = decisions d.status n d.polls

section Backing

variable {st : Statics} {d : Device} {n : Nat} {e : Drive} (lba : UInt32) (data : Sector)

theorem Backs.accepts (h : Backs st d n e) : ataTransferAccepts e lba = accepts st lba := by
  rw [ataTransferAccepts, Ports.accepts, h.present, h.sectorCount]

/-- A served write takes the drive's own decision off the script. -/
theorem Backs.served (h : Backs st d (n + 1) e) (haccepts : Ports.accepts st lba = true) :
    ((Ata.ataWrite28 e lba data).1 = true ↔ (ataWrite28 st lba data d).1 = 0) ∧
      Backs st (ataWrite28 st lba data d).2 n (Ata.ataWrite28 e lba data).2 := by
  have hserved : ataTransferAccepts e lba = true := by rw [h.accepts, haccepts]
  have hnext : e.nextWrite = (decision d.status d.polls).1 := by
    rw [Drive.nextWrite, h.writeScript]
    rfl
  have hbacks : ∀ {outcome}, Outcome d (ataWrite28 st lba data d).2 lba data outcome →
      Backs st (ataWrite28 st lba data d).2 n (Ata.ataWrite28 e lba data).2 := by
    intro outcome hout
    rw [ataWrite28_eq]
    refine ⟨h.present, h.sectorCount, ?_, ?_⟩
    · rw [hout.sectors, h.sectors, hnext, hout.decided, hserved]
      cases outcome <;> rfl
    · dsimp only
      rw [if_pos hserved, h.writeScript, decisions, List.tail_cons, hout.status, hout.decided]
  rw [show (Ata.ataWrite28 e lba data).1 = (ataTransferAccepts e lba && e.nextWrite = .stored) by rw [ataWrite28_eq],
    hserved, hnext]
  rcases @ataWrite28_cases st lba data d haccepts with ⟨hrc, hout⟩ | ⟨hrc, hout⟩ | ⟨i, j, k, -, heq, hout⟩
  · exact ⟨by simp [hrc, hout.decided], hbacks hout⟩
  · exact ⟨by simp [hrc, hout.decided], hbacks hout⟩
  · refine ⟨?_, hbacks hout⟩
    rw [hout.decided, heq]
    simp

/-- **The scripted drive is the drive at the ports**: a write returns the same, and leaves the same behind. -/
theorem Backs.write (h : Backs st d (n + 1) e) :
    ((Ata.ataWrite28 e lba data).1 = true ↔ (ataWrite28 st lba data d).1 = 0) ∧
      ∃ m, n ≤ m ∧ Backs st (ataWrite28 st lba data d).2 m (Ata.ataWrite28 e lba data).2 := by
  by_cases haccepts : Ports.accepts st lba = true
  · exact ⟨(h.served lba data haccepts).1, n, Nat.le_refl n, (h.served lba data haccepts).2⟩
  · have hrefused : ataTransferAccepts e lba = false := by
      rw [h.accepts]
      exact Bool.not_eq_true _ ▸ haccepts
    rw [ataWrite28, ataTransfer_refused haccepts, ataWrite28_eq, hrefused]
    exact ⟨by simp, n + 1, Nat.le_succ n, h.present, h.sectorCount, h.sectors, h.writeScript⟩

end Backing

end MinOS.Ata.Ports
