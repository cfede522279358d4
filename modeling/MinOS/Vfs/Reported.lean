/-
# MinOS.Vfs.Reported — what `persist` and `vfs_write` know of the drive's errors.

Both return 0 if every `ata_write28` they made returned 0. Here the drive of the filesystem is the one at the ports:
its decisions are those of the status values it presents. What a return of 0 is worth is then what it is worth for each
of the writes.
-/
import MinOS.Ata.RoundTrip
import MinOS.Ata.Status
import MinOS.Vfs.Remount

namespace MinOS.Vfs

open MinOS.Ata
open MinOS.Ata.Ports (Statics Device Backs Confirmed Unreported decisions)

/-! ## The calls of a trace at the ports -/

section Trace

variable (st : Statics)

/-- The drive after the calls of a trace -/
def afterTrace : List Transfer → Device → Device
  | [], d => d
  | .read lba _ :: ts, d => afterTrace ts (Ports.ataRead28 st lba (fun _ => 0) d).2.2
  | .write lba data _ :: ts, d => afterTrace ts (Ports.ataWrite28 st lba data d).2

/-- Each write of a trace, with the drive as it finds it -/
def EachWrite (P : UInt32 → Sector → Device → Prop) : List Transfer → Device → Prop
  | [], _ => True
  | .read lba _ :: ts, d => EachWrite P ts (Ports.ataRead28 st lba (fun _ => 0) d).2.2
  | .write lba data _ :: ts, d => P lba data d ∧ EachWrite P ts (Ports.ataWrite28 st lba data d).2

/-- **A write without a reported error**: it returned 0, the sector is on the drive, and the drive has said so. -/
structure StoredCleanly (lba : UInt32) (data : Sector) (d : Device) : Prop where
  returned : (Ports.ataWrite28 st lba data d).1 = 0
  stored : (Ports.ataWrite28 st lba data d).2.sectors lba.toNat = data
  confirmed : Confirmed data (d.since (Ports.ataWrite28 st lba data d).2)

variable {st}

theorem afterTrace_concat (ts : List Transfer) (lba : UInt32) (data : Sector) (ok : Bool) (d : Device) :
    afterTrace st (ts ++ [.write lba data ok]) d = (Ports.ataWrite28 st lba data (afterTrace st ts d)).2 := by
  induction ts generalizing d with
  | nil => rfl
  | cons t ts ih => cases t <;> exact ih _

theorem eachWrite_concat {P : UInt32 → Sector → Device → Prop} (ts : List Transfer) (lba : UInt32) (data : Sector)
    (ok : Bool) (d : Device) : EachWrite st P (ts ++ [.write lba data ok]) d ↔
      EachWrite st P ts d ∧ P lba data (afterTrace st ts d) := by
  induction ts generalizing d with
  | nil => simp [EachWrite, afterTrace]
  | cons t ts ih =>
    cases t with
    | read lba' ok' => exact ih _
    | write lba' data' ok' => simp only [List.cons_append, EachWrite, afterTrace, ih, and_assoc]

/-- **From one write to all of them** -/
theorem eachWrite_storedCleanly_iff {ts : List Transfer} {d : Device}
    (h : EachWrite st (fun lba data d => (Ports.ataWrite28 st lba data d).1 = 0) ts d) :
    EachWrite st (StoredCleanly st) ts d ↔ EachWrite st (fun lba _ d => ¬ Unreported st lba d) ts d := by
  induction ts generalizing d with
  | nil => exact Iff.rfl
  | cons t ts ih =>
    cases t with
    | read lba ok => exact ih h
    | write lba data ok =>
      obtain ⟨hreturned, hrest⟩ := h
      have hconfirmed := Ports.confirmed_of_ataWrite28 hreturned
      have hone : StoredCleanly st lba data d ↔ ¬ Unreported st lba d := by
        constructor
        · intro hclean
          exact hconfirmed.mp hclean.confirmed
        · intro hreported
          refine ⟨hreturned, ?_, hconfirmed.mpr hreported⟩
          rw [Ports.ataWrite28_sectors hreturned, Function.update_self]
      exact and_congr hone (ih hrest)

end Trace

/-! ## The filesystem on the drive at the ports -/

/-- A drive of `MinOS.Ata` that has made its calls on this one, and follows it for `n` more writes -/
structure Follows (st : Statics) (d : Device) (n : Nat) (e : Drive) : Prop where
  returned : EachWrite st (fun lba data d => (Ports.ataWrite28 st lba data d).1 = 0) e.trace d
  backs : Backs st (afterTrace st e.trace d) n e

/-- The filesystem with its drive at the ports; `vfs_write` makes 16 writes at most. -/
def attach (st : Statics) (d : Device) (s : State) : State :=
  { s with
    drive :=
      { present := st.present
        sectorCount := st.sectorCount
        sectors := d.sectors
        readScript := []
        writeScript := decisions d.status 16 d.polls
        trace := [] } }

section Attached

variable {st : Statics} {d : Device} {n : Nat} {e : Drive}

theorem follows_attach (st : Statics) (d : Device) (s : State) : Follows st d 16 (attach st d s).drive :=
  ⟨trivial, rfl, rfl, rfl, rfl⟩

/-- A write that returns 0 is followed … -/
theorem Follows.write (h : Follows st d (n + 1) e) {lba : UInt32} {data : Sector}
    (hok : (ataWrite28 e lba data).1 = true) : Follows st d n (ataWrite28 e lba data).2 := by
  have haccepts : Ports.accepts st lba = true := by
    rw [← h.backs.accepts]
    exact (ataWrite28_eq_true e lba data hok).1
  obtain ⟨hreturned, hbacks⟩ := h.backs.served lba data haccepts
  have htrace := ataWrite28_trace e lba data
  refine ⟨?_, ?_⟩
  · rw [htrace, eachWrite_concat]
    exact ⟨h.returned, hreturned.mp hok⟩
  · rw [htrace, afterTrace_concat]
    exact hbacks

/-- … and so is a loop of them. -/
theorem Follows.writeSectors (base : UInt32) (b : Block) (is : List (Fin 8)) :
    ∀ {e}, Follows st d (n + is.length) e → (writeSectors base b is e).1 = true →
      Follows st d n (writeSectors base b is e).2 := by
  induction is with
  | nil => intro e h _; exact h
  | cons i is ih =>
    intro e h hok
    cases hk : (ataWrite28 e (lbaAdd base i) (sectorOf b i)).1 with
    | false =>
      rw [writeSectors_cons_fail base b is hk] at hok
      cases hok
    | true =>
      rw [writeSectors_cons_ok base b is hk] at hok ⊢
      exact ih (h.write hk) hok

/-- `persist` that returns 0 -/
theorem Follows.persist {s : State} (h : Follows st d (n + 8) s.drive) (hok : (persist s).1 = 0) :
    ∃ m, Follows st d m (Vfs.persist s).2.drive := by
  unfold Vfs.persist at hok ⊢
  split at hok
  · rename_i hdisk
    rw [if_pos hdisk]
    exact ⟨n, h.writeSectors _ _ _ (rc_eq_zero_iff.mp hok)⟩
  · rename_i hdisk
    rw [if_neg hdisk]
    exact ⟨n + 8, h⟩

/-- `vfs_write` that returns 0, behind its checks -/
theorem Follows.writeAt {s : State} (h : Follows st d 16 s.drive) {slot : Slot} {pos : Nat} {data : List UInt8}
    (hok : (writeAt s slot pos data).1 = 0) : ∃ m, Follows st d m (Vfs.writeAt s slot pos data).2.drive := by
  rw [writeAt_eq] at hok ⊢
  split at hok
  · rename_i hdisk
    rw [if_pos hdisk]
    cases hloop : Vfs.writeSectors (s.records slot).dataLba ((written s slot pos data).contents slot)
        (List.finRange 8) s.drive with
    | mk ok drive =>
      have hfollows := @Follows.writeSectors st d 8 (s.records slot).dataLba
        ((written s slot pos data).contents slot) (List.finRange 8) _ h
      rw [hloop] at hok hfollows
      cases ok with
      | false => cases hok
      | true => exact (hfollows rfl).persist hok
  · rename_i hdisk
    rw [if_neg hdisk]
    exact @Follows.persist st d 8 (written s slot pos data) h hok

theorem Follows.vfsWrite {s s' : State} (h : Follows st d 16 s.drive) {path data : List UInt8} {append : Bool}
    (hok : vfsWrite s path data append = .ok (0, s')) : ∃ m, Follows st d m s'.drive := by
  rcases write_cases hok with ⟨hrc, -⟩ | ⟨slot, pos, hwrite⟩
  · cases hrc
  · have hfollows := @Follows.writeAt st d s h slot pos data
    rw [hwrite] at hfollows
    exact hfollows rfl

end Attached

/-- **What a return of 0 is worth.** If `ata_write28` returns 0, the drive has taken the sector without an error, unless
it ended the last wait with one. If `persist` or `vfs_write` returns 0, all their sectors are stored without an error if
and only if none of their writes ended so. -/
theorem write_reported_iff (st : Statics) :
    (∀ (lba : UInt32) (buffer : Sector) (d : Device),
      ((Ports.ataWrite28 st lba buffer d).1 = 0 →
        Confirmed buffer (d.since (Ports.ataWrite28 st lba buffer d).2)) ↔ ¬ Unreported st lba d) ∧
    (∀ (d : Device) (s : State), (persist (attach st d s)).1 = 0 →
      (EachWrite st (StoredCleanly st) (persist (attach st d s)).2.drive.trace d ↔
        EachWrite st (fun lba _ d => ¬ Unreported st lba d) (persist (attach st d s)).2.drive.trace d)) ∧
    (∀ (d : Device) (s s' : State) (path data : List UInt8) (append : Bool),
      vfsWrite (attach st d s) path data append = .ok (0, s') →
        (EachWrite st (StoredCleanly st) s'.drive.trace d ↔
          EachWrite st (fun lba _ d => ¬ Unreported st lba d) s'.drive.trace d)) := by
  refine ⟨?_, ?_, ?_⟩
  · intro lba buffer d
    constructor
    · intro hconfirms hunreported
      have hreturned := @Ports.ataWrite28_of_unreported st lba buffer d hunreported
      exact (Ports.confirmed_of_ataWrite28 hreturned).mp (hconfirms hreturned) hunreported
    · intro hreported hreturned
      exact (Ports.confirmed_of_ataWrite28 hreturned).mpr hreported
  · intro d s hok
    obtain ⟨m, hfollows⟩ := @Follows.persist st d 8 (attach st d s) (follows_attach st d s) hok
    exact eachWrite_storedCleanly_iff hfollows.returned
  · intro d s s' path data append hok
    obtain ⟨m, hfollows⟩ := (follows_attach st d s).vfsWrite hok
    exact eachWrite_storedCleanly_iff hfollows.returned

/-! A drive that is always ready, and one that ends the first write with an error -/

theorem eachWrite_of_status {st : Statics} {P : UInt32 → Sector → Device → Prop} {status : Nat → UInt8}
    (hP : ∀ lba data d, d.status = status → P lba data d) (ts : List Transfer) :
    ∀ d, d.status = status → EachWrite st P ts d := by
  induction ts with
  | nil => intro d _; trivial
  | cons t ts ih =>
    intro d hd
    cases t with
    | read lba ok => exact ih _ ((Ports.ataTransfer_status false).trans hd)
    | write lba data ok => exact ⟨hP lba data d hd, ih _ ((Ports.ataTransfer_status true).trans hd)⟩

theorem writeSectors_of_stored (base : UInt32) (b : Block) (is : List (Fin 8)) : ∀ {e : Drive} {n : Nat},
    e.writeScript = List.replicate (is.length + n) .stored →
      (∀ i ∈ is, ataTransferAccepts e (lbaAdd base i) = true) → (writeSectors base b is e).1 = true := by
  induction is with
  | nil => intro e n _ _; rfl
  | cons i is ih =>
    intro e n hscript haccepts
    rw [List.length_cons, Nat.add_right_comm, List.replicate_succ] at hscript
    obtain ⟨hok, hrest⟩ := ataWrite28_of_stored e _ (sectorOf b i) hscript (haccepts i List.mem_cons_self)
    rw [writeSectors_cons_ok base b is hok]
    refine ih hrest ?_
    intro k hk
    rw [ataTransferAccepts_congr (ataWrite28_present e _ _) (ataWrite28_sectorCount e _ _)]
    exact haccepts k (List.mem_cons_of_mem i hk)

section Ready

variable {status : Nat → UInt8} (hready : ∀ i, status i = 0x48)
include hready

theorem through_of_ready (start : Nat) : Ports.Through status start start (start + 1) (start + 1 + 1) := by
  refine ⟨Ports.firstPoll_now ?_, Ports.firstPoll_now ?_, Ports.firstPoll_now ?_⟩ <;> rw [hready] <;> rfl

theorem not_unreported_of_ready {st : Statics} (lba : UInt32) {d : Device} (hd : d.status = status) :
    ¬ Unreported st lba d := by
  rintro ⟨-, i, j, k, -, herror⟩
  rw [hd, hready] at herror
  exact herror rfl

theorem decisions_of_ready (n start : Nat) : decisions status n start = List.replicate n .stored := by
  induction n generalizing start with
  | zero => rfl
  | succ n ih =>
    have hthrough := through_of_ready hready start
    have hdecision : Ports.decision status start = (.stored, start + 1 + 1 + 1) := by
      simp only [Ports.decision, hthrough.first, hthrough.second, hthrough.third]
    rw [decisions, hdecision, ih, List.replicate_succ]

end Ready

/-- A flush to a drive that is always ready -/
theorem write_reported_ready :
    EachWrite ⟨true, 65536⟩ (StoredCleanly ⟨true, 65536⟩)
      (persist (attach ⟨true, 65536⟩ Device.obliging oneDirectory)).2.drive.trace Device.obliging := by
  have hready : ∀ i, Device.obliging.status i = 0x48 := fun _ => rfl
  have hscript : (attach ⟨true, 65536⟩ Device.obliging oneDirectory).drive.writeScript =
      List.replicate (8 + 8) .stored := decisions_of_ready hready 16 _
  have hserves : Serves (attach ⟨true, 65536⟩ Device.obliging oneDirectory).drive vfsMetaLba :=
    serves_blankDisk.congr rfl rfl
  have hok : (persist (attach ⟨true, 65536⟩ Device.obliging oneDirectory)).1 = 0 := by
    rw [persist, if_pos (show (attach _ _ oneDirectory).diskBacked = true from diskBacked_oneDirectory)]
    exact rc_eq_zero_iff.mpr (writeSectors_of_stored _ _ (List.finRange 8) hscript fun i _ => hserves i)
  refine ((write_reported_iff ⟨true, 65536⟩).2.1 Device.obliging oneDirectory hok).mpr ?_
  exact eachWrite_of_status (fun lba _ _ hd => not_unreported_of_ready hready lba hd) _ _ rfl

/-- It ends the first write with an error: its third status value is DRDY and ERR. -/
def failing : Device := { Device.obliging with status := fun i => if i = 2 then 0x41 else 0x48 }

/-- **An error behind the data is taken for success.** -/
theorem ataWrite28_hides_error :
    (Ports.ataWrite28 ⟨true, 65536⟩ 65024 (fun _ => 0) failing).1 = 0 ∧
      ¬ Confirmed (fun _ => 0) (failing.since (Ports.ataWrite28 ⟨true, 65536⟩ 65024 (fun _ => 0) failing).2) := by
  have hthrough : Ports.Through failing.status failing.polls 0 1 2 :=
    ⟨Ports.firstPoll_now rfl, Ports.firstPoll_now rfl, Ports.firstPoll_now rfl⟩
  have hunreported : Unreported ⟨true, 65536⟩ 65024 failing := ⟨by decide, 0, 1, 2, hthrough, by decide⟩
  have hreturned := @Ports.ataWrite28_of_unreported _ _ (fun _ => 0) _ hunreported
  refine ⟨hreturned, ?_⟩
  rw [Ports.confirmed_of_ataWrite28 hreturned]
  exact not_not.mpr hunreported

end MinOS.Vfs
