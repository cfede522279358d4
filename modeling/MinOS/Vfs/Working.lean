/-
# MinOS.Vfs.Working — runs on a drive that works.

On a drive without errors that has the metadata sectors every flush returns 0, so a reboot at any time
is one that follows a successful flush, and the state invariant holds in every run, whichever calls and
reboots it makes (`Run.healthy`). A write to or read of a file whose sectors the drive has returns 0.
-/
import MinOS.Vfs.Reach

namespace MinOS.Vfs

open MinOS.Ata

/-- No errors ahead, and the metadata sectors are in range. -/
structure Working (d : Drive) : Prop where
  present : d.present = true
  sectors : 65032 ≤ d.sectorCount.toNat
  reads : d.readScript = []
  writes : d.writeScript = []

theorem Working.serves {d : Drive} (h : Working d) : Serves d vfsMetaLba := by
  intro i
  have := h.sectors
  apply ataTransferAccepts_of_lt h.present <;> rw [toNat_lbaAdd_meta] <;> omega

theorem working_blankDisk {count : UInt32} (h : 65032 ≤ count.toNat) : Working (blankDisk count) :=
  ⟨rfl, h, rfl, rfl⟩

theorem Working.congr {d e : Drive} (h : Working d) (hp : e.present = d.present)
    (hc : e.sectorCount = d.sectorCount) (hr : e.readScript = []) (hw : e.writeScript = []) :
    Working e :=
  ⟨hp.trans h.present, hc ▸ h.sectors, hr, hw⟩

/-- A mounted and flushed filesystem on a working drive -/
structure Healthy (s : State) : Prop where
  backed : s.diskBacked = true
  drive : Working s.drive
  flushed : s.flushed = true

theorem healthy_persist {s : State} (hb : s.diskBacked = true) (hd : Working s.drive) :
    Healthy (persist s).2 := by
  refine ⟨by rw [persist_diskBacked]; exact hb, ?_, ?_⟩
  · exact hd.congr (persist_present s) (persist_sectorCount s)
      (by rw [persist_readScript]; exact hd.reads) (persist_writeScript_of_nil s hd.writes)
  · exact (persist_fst_eq_zero_iff s).mp (persist_of_calm hd.writes fun _ => hd.serves)

theorem healthy_mount {d : Drive} (h : Working d) : Healthy (mount d).2 := by
  obtain ⟨bp, bc, -, bw⟩ := bootState_frame d
  rw [mount_eq]
  exact healthy_persist h.present
    (h.congr bp bc (bootState_readScript_of_nil h.reads) (bw.trans h.writes))

section Steps

variable {s : State} (h : Healthy s)
include h

theorem Healthy.setRecord (n : Slot) (r : VfsRecord) : Healthy (persist (s.setRecord n r)).2 :=
  healthy_persist h.backed h.drive

theorem Healthy.refresh (n : Slot) : Healthy (refresh s n).2 := by
  obtain ⟨hp, hc, -, hw⟩ := refresh_frame s n
  refine ⟨by rw [refresh_diskBacked]; exact h.backed, ?_, by rw [refresh_flushed]; exact h.flushed⟩
  exact h.drive.congr hp hc (refresh_readScript_of_nil n h.drive.reads) (hw.trans h.drive.writes)

/-- Also when the data sectors are out of range: then nothing is flushed. -/
theorem Healthy.writeAt (n : Slot) (pos : Nat) (d : List UInt8) :
    Healthy (writeAt s n pos d).2 := by
  have hdrive : Working (writeSectors (s.records n).dataLba ((written s n pos d).contents n)
      (List.finRange 8) s.drive).2 :=
    h.drive.congr (writeSectors_present _ _ _ _) (writeSectors_sectorCount _ _ _ _)
      ((writeSectors_readScript _ _ _ _).trans h.drive.reads)
      (writeSectors_writeScript_of_nil _ _ _ _ h.drive.writes)
  rw [writeAt_eq, if_pos h.backed]
  split <;> rename_i heq <;> rw [heq] at hdrive
  · exact healthy_persist h.backed hdrive
  · exact ⟨h.backed, hdrive, h.flushed⟩

end Steps

theorem Micro.healthy {c : Scope} {s s' : State} (hstep : Micro c s s') (h : Healthy s) :
    Healthy s' := by
  cases hstep with
  | create type hc => exact h.setRecord _ _
  | clear hc => exact h.setRecord _ _
  | refresh hw => exact h.refresh _
  | write d hw hpos => exact h.writeAt _ _ _

/-- The size of the disk never changes. -/
theorem Micro.sectorCount {c : Scope} {s s' : State} (hstep : Micro c s s') :
    s'.drive.sectorCount = s.drive.sectorCount := by
  cases hstep with
  | create type hc => exact persist_sectorCount _
  | clear hc => exact persist_sectorCount _
  | refresh hw => exact (refresh_frame s _).2.1
  | @write n pos d hw hpos =>
    have hc := writeSectors_sectorCount (s.records n).dataLba ((written s n pos d).contents n)
      (List.finRange 8) s.drive
    rw [writeAt_eq]
    split
    · split <;> rename_i heq <;> rw [heq] at hc
      · rw [persist_sectorCount]
        exact hc
      · exact hc
    · rw [persist_sectorCount, written_drive]

theorem Micros.healthy {c : Scope} {s s' : State} (hsteps : Micros c s s') (h : Healthy s) :
    Healthy s' ∧ s'.drive.sectorCount = s.drive.sectorCount := by
  induction hsteps with
  | refl => exact ⟨h, rfl⟩
  | tail _ hstep ih => exact ⟨hstep.healthy ih.1, hstep.sectorCount.trans ih.2⟩

/-! ## What is on the medium -/

theorem stored_persist_of_working {s : State} (hb : s.diskBacked = true) (hd : Working s.drive) :
    stored (persist s).2.drive = some ((persist s).2.generation, (persist s).2.records) := by
  rw [stored_of_persist hb (persist_of_calm hd.writes fun _ => hd.serves), persist_generation hb,
    persist_records]

/-- A micro-step flushes the table it leaves, or nothing. -/
theorem Micro.stored_cases {c : Scope} {s s' : State} (hstep : Micro c s s') (hwf : Wf s.records)
    (h : Healthy s) :
    stored s'.drive = stored s.drive ∨ stored s'.drive = some (s'.generation, s'.records) := by
  cases hstep with
  | create type hc => exact Or.inr (stored_persist_of_working h.backed h.drive)
  | clear hc => exact Or.inr (stored_persist_of_working h.backed h.drive)
  | refresh hw =>
    obtain ⟨hp, hc, hs, -⟩ := refresh_frame s _
    exact Or.inl (stored_congr hp hc fun i => by rw [hs])
  | @write n pos d hw hpos =>
    rw [writeAt_eq, if_pos h.backed, hwf.lba n (hwf.ne_root_of_writable hw) hw.used]
    have hst := stored_writeSectors_slot n ((written s n pos d).contents n) s.drive
    have hdrive : Working (writeSectors (slotLba n) ((written s n pos d).contents n)
        (List.finRange 8) s.drive).2 :=
      h.drive.congr (writeSectors_present _ _ _ _) (writeSectors_sectorCount _ _ _ _)
        ((writeSectors_readScript _ _ _ _).trans h.drive.reads)
        (writeSectors_writeScript_of_nil _ _ _ _ h.drive.writes)
    split <;> rename_i heq <;> rw [heq] at hst hdrive
    · exact Or.inr (stored_persist_of_working h.backed hdrive)
    · exact Or.inl hst

/-- What holds of the empty table and of the stored one holds of the table a mount loads. -/
theorem mount_records {P : Table → Prop} {d : Drive} (hinit : P initTable)
    (hst : ∀ g t, stored d = some (g, t) → P t) : P (mount d).2.records := by
  rw [mount_eq, persist_records]
  by_cases hp : d.present = true
  · cases hl : (loadTable d).1 with
    | none =>
      rw [(bootState_of_fresh fun _ => hl).1]
      exact hinit
    | some x =>
      rw [(bootState_of_load hp hl).1]
      exact hst _ _ (stored_of_loadTable hl)
  · rw [(bootState_of_fresh fun hc => absurd hc hp).1]
    exact hinit

theorem stored_mount_of_working {d : Drive} (h : Working d) :
    stored (mount d).2.drive = some ((mount d).2.generation, (mount d).2.records) := by
  obtain ⟨bp, bc, -, bw⟩ := bootState_frame d
  rw [mount_eq]
  exact stored_persist_of_working h.present
    (h.congr bp bc (bootState_readScript_of_nil h.reads) (bw.trans h.writes))

/-! ## Whole runs -/

theorem mount_sectorCount (d : Drive) : (mount d).2.drive.sectorCount = d.sectorCount := by
  rw [mount_eq, persist_sectorCount]
  exact (bootState_frame d).2.1

/-- **Whole runs on a working drive**: the invariant holds and the last flush returned 0, so every
reboot is allowed. -/
theorem Run.healthy {mayCall : State → Op → Prop} {mayReboot : State → Prop} {d : Drive}
    (hd : Fresh d) (hw : Working d) {s : State} (h : Run mayCall mayReboot d s) :
    Inv s ∧ Healthy s ∧ s.drive.sectorCount = d.sectorCount := by
  induction h with
  | boot => exact ⟨hd.inv_mount, healthy_mount hw, mount_sectorCount d⟩
  | call _ _ hstep ih =>
    obtain ⟨hinv, hh, hcount⟩ := ih
    have hm := hinv.micros hstep
    exact ⟨hm.inv hinv, (hm.healthy hh).1, (hm.healthy hh).2.trans hcount⟩
  | reboot _ _ ih =>
    obtain ⟨hinv, hh, hcount⟩ := ih
    exact ⟨hinv.mount hh.flushed, healthy_mount hh.drive, (mount_sectorCount _).trans hcount⟩

/-! ## Calls that return 0 -/

theorem serves_slot {d : Drive} {n : Slot} (hp : d.present = true)
    (hc : 65040 + 8 * n.val ≤ d.sectorCount.toNat) : Serves d (slotLba n) := by
  intro i
  apply ataTransferAccepts_of_lt hp <;> rw [toNat_lbaAdd_slot] <;> omega

/-- A write to a file whose sectors exist stores the row and the table. -/
theorem Healthy.writeAt_ok {s : State} (h : Healthy s) {n : Slot}
    (hs : Serves s.drive (s.records n).dataLba) (pos : Nat) (d : List UInt8) :
    Vfs.writeAt s n pos d = persist { written s n pos d with
      drive := (writeSectors (s.records n).dataLba ((written s n pos d).contents n)
        (List.finRange 8) s.drive).2 } ∧
    (Vfs.writeAt s n pos d).1 = 0 := by
  have hok := hs.writeSectors_ok h.drive.writes ((written s n pos d).contents n)
  have heq : Vfs.writeAt s n pos d = persist { written s n pos d with
      drive := (writeSectors (s.records n).dataLba ((written s n pos d).contents n)
        (List.finRange 8) s.drive).2 } := by
    rw [writeAt_eq, if_pos h.backed]
    split <;> rename_i hres <;> rw [hres] at hok
    · rw [hres]
    · cases hok
  refine ⟨heq, ?_⟩
  rw [heq]
  refine persist_of_calm (writeSectors_writeScript_of_nil _ _ _ _ h.drive.writes) fun _ => ?_
  exact h.drive.serves.congr (writeSectors_present _ _ _ _) (writeSectors_sectorCount _ _ _ _)

/-- A read of a file whose sectors exist returns the file's bytes on the medium. -/
theorem Healthy.readAt_ok {s : State} (h : Healthy s) {n : Slot}
    (hs : Serves s.drive (s.records n).dataLba) (cap : UInt32) :
    (readAt s n cap).1 = some ((List.ofFn (blockAt s.drive (s.records n).dataLba)).take
      (min (s.records n).size.toNat cap.toNat)) := by
  have hok : (Vfs.refresh s n).1 = true := (refresh_fst_iff h.backed h.drive.reads).mpr hs
  have hcontents := refresh_contents h.backed hok
  have hrec := refresh_records s n
  rw [readAt]
  cases hr : Vfs.refresh s n with
  | mk ok s' =>
    rw [hr] at hok hcontents hrec
    dsimp only at hok hcontents hrec
    subst hok
    simp only [hcontents, hrec]

/-- A touch of a path that can be created returns 0 and leaves a file there. -/
theorem Healthy.exists_touch {s : State} (h : Wf s.records) (hh : Healthy s) {p : PathArg} {j k : Slot}
    {x : List UInt8} (ht : createTarget s.records p.chars = some (j, k, x)) :
    ∃ s', vfsTouch s p.chars = .ok (0, s') ∧
      s'.records = Function.update s.records k (newRecord .file j k x) ∧
      fileAt s'.records p.chars = some k ∧ Wf s'.records := by
  obtain ⟨r, s', hstep, hrec, hzero⟩ := h.exists_touch ht
  obtain ⟨r', s'', hstep', hsteps⟩ := h.step_micros (.touch p)
  cases hstep.symm.trans hstep'
  obtain rfl := hzero (hsteps.healthy hh).1.flushed
  obtain ⟨_, htouch, hcode⟩ := reply_eq_ok_iff.mp hstep
  cases hcode
  obtain ⟨q, hp, hc⟩ := creatable_of_createTarget ht
  refine ⟨s', htouch, hrec, ?_, ?_⟩
  · rw [hrec, fileAt_eq_some_iff, Function.update_self]
    exact ⟨h.lookup_created hc .file hp, rfl⟩
  · rw [hrec]
    exact hc.wf h .file

/-! ## A file below a directory -/

/-- `/a/b` with one byte -/
def writtenTable : Table := Function.update nestedTable 2 { newRecord .file 1 2 [98] with size := 1 }

/-- A `mkdir`, a `touch` and a `write` on an empty working disk -/
theorem exists_written {d : Drive} (hd : Fresh d) (hw : Working d) (hroom : 65056 ≤ d.sectorCount.toNat) :
    ∃ s₁ s₂ s₃, step (mount d).2 (.mkdir pathA) = .ok (.code 0, s₁) ∧
      step s₁ (.touch pathAB) = .ok (.code 0, s₂) ∧
      step s₂ (.write pathAB [120] false) = .ok (.code 0, s₃) ∧
      s₂.records = nestedTable ∧ s₃.records = writtenTable ∧ writeAt s₂ 2 0 [120] = (0, s₃) := by
  obtain ⟨r₁, s₁, r₂, s₂, hmkdir, hzero₁, htouch, hzero₂, hrec₂⟩ := exists_nested hd
  have hs₁ : Run (fun _ _ => True) (fun _ => True) d s₁ := .call .boot trivial hmkdir
  have hs₂ := hs₁.call trivial htouch
  obtain ⟨-, hh₁, -⟩ := hs₁.healthy hd hw
  obtain ⟨hinv₂, hh₂, hcount₂⟩ := hs₂.healthy hd hw
  obtain rfl := hzero₁ hh₁.flushed
  obtain rfl := hzero₂ hh₂.flushed
  have hserves : Serves s₂.drive (s₂.records 2).dataLba := by
    rw [hrec₂]
    exact serves_slot (n := 2) hh₂.drive.present (by rw [hcount₂]; exact hroom)
  obtain ⟨-, hzero⟩ := hh₂.writeAt_ok hserves 0 [120]
  have hfile : fileAt s₂.records pathAB.chars = some 2 := by
    rw [hrec₂]
    exact fileAt_pathAB
  refine ⟨s₁, s₂, (writeAt s₂ 2 0 [120]).2, hmkdir, htouch, ?_, hrec₂, ?_, Prod.ext hzero rfl⟩
  · have hcall := hinv₂.wf.write_eq pathAB [120] false
    rw [hfile] at hcall
    rw [step, hcall]
    exact congrArg (fun r => Except.ok (Reply.code r, (writeAt s₂ 2 0 [120]).2)) hzero
  · rw [writeAt_records, hrec₂]
    rfl

end MinOS.Vfs
