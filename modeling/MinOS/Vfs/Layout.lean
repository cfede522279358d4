/-
# MinOS.Vfs.Layout — which sectors the filesystem writes, and whether they exist.

Every `ata_write28` of the filesystem goes to a metadata sector or to one of the eight sectors of the
slot of the file being written (`writes_stay_in_tail`): the address comes from a record field, and the
table invariant says what that field is for every used record, also after a reload.

Whether those sectors are on the disk is another matter. The reserved tail of an image of
`VFS_DISK_END_LBA` sectors has room for the eight sectors of slots 0 to 62; slot 63 ends eight sectors
past the end. `Run.no_file_63` says when no call of a run puts a file into slot 63, and
`Run.layout_iff` that this is the only way to break the layout.
-/
import MinOS.Vfs.Working

namespace MinOS.Vfs

open MinOS.Ata Machine

/-! ## What is added to the trace -/

/-- The transfers between two states of a drive -/
def Traced (P : Transfer → Prop) (d d' : Drive) : Prop :=
  ∃ tr, d'.trace = d.trace ++ tr ∧ ∀ x ∈ tr, P x

theorem Traced.refl (P : Transfer → Prop) (d : Drive) : Traced P d d := ⟨[], by simp⟩

theorem Traced.trans {P : Transfer → Prop} {d d' d'' : Drive} (h : Traced P d d')
    (h' : Traced P d' d'') : Traced P d d'' := by
  obtain ⟨tr, htr, hP⟩ := h
  obtain ⟨tr', htr', hP'⟩ := h'
  refine ⟨tr ++ tr', by rw [htr', htr, List.append_assoc], fun x hx => ?_⟩
  rcases List.mem_append.mp hx with hx | hx
  · exact hP x hx
  · exact hP' x hx

theorem Traced.mono {P Q : Transfer → Prop} (hPQ : ∀ x, P x → Q x) {d d' : Drive}
    (h : Traced P d d') : Traced Q d d' := by
  obtain ⟨tr, htr, hP⟩ := h
  exact ⟨tr, htr, fun x hx => hPQ x (hP x hx)⟩

/-- A read, a write of a metadata sector, or a write of a data sector of a slot in `data` -/
inductive Allowed (data : Slot → Prop) : Transfer → Prop
  | read (lba : UInt32) (ok : Bool) : Allowed data (.read lba ok)
  | metadata (i : Fin 8) (b : Sector) (ok : Bool) :
      Allowed data (.write (lbaAdd vfsMetaLba i) b ok)
  | file {n : Slot} (hn : data n) (i : Fin 8) (b : Sector) (ok : Bool) :
      Allowed data (.write (lbaAdd (slotLba n) i) b ok)

/-- A flush writes the table to the metadata sectors. -/
theorem persist_trace (s : State) :
    Traced (fun x => ∃ i ok, x = .write (lbaAdd vfsMetaLba i)
      (sectorOf (encodeMeta (s.generation + 1) s.records) i) ok) s.drive (persist s).2.drive := by
  unfold persist
  split
  · obtain ⟨tr, htr, hmem, -⟩ := writeSectors_trace vfsMetaLba
      (encodeMeta (s.generation + 1) s.records) (List.finRange 8) s.drive
    refine ⟨tr, htr, fun x hx => ?_⟩
    obtain ⟨i, -, ok, rfl⟩ := hmem x hx
    exact ⟨i, ok, rfl⟩
  · exact Traced.refl _ _

/-- The disk half of a read only reads. -/
theorem refresh_trace (s : State) (n : Slot) :
    Traced (fun x => ∃ lba ok, x = .read lba ok) s.drive (refresh s n).2.drive := by
  unfold refresh
  split
  · obtain ⟨tr, htr, hmem, -⟩ := readSectors_trace (s.records n).dataLba (List.finRange 8)
      (s.contents n) s.drive
    refine ⟨tr, htr, fun x hx => ?_⟩
    obtain ⟨i, -, ok, rfl⟩ := hmem x hx
    exact ⟨_, ok, rfl⟩
  · exact Traced.refl _ _

/-- Before it flushes, `vfs_init` only reads. -/
theorem bootState_trace (d : Drive) :
    Traced (fun x => ∃ lba ok, x = .read lba ok) d (bootState d).drive := by
  simp only [bootState, State.boot]
  split
  · exact loadTable_trace d
  · exact Traced.refl _ _

section Steps

variable {data : Slot → Prop}

theorem traced_persist (s : State) : Traced (Allowed data) s.drive (persist s).2.drive := by
  refine (persist_trace s).mono ?_
  rintro x ⟨i, ok, rfl⟩
  exact .metadata i _ ok

theorem traced_refresh (s : State) (n : Slot) :
    Traced (Allowed data) s.drive (refresh s n).2.drive := by
  refine (refresh_trace s n).mono ?_
  rintro x ⟨lba, ok, rfl⟩
  exact .read lba ok

theorem traced_writeAt {s : State} {n : Slot} (hlba : (s.records n).dataLba = slotLba n)
    (hn : data n) (pos : Nat) (d : List UInt8) :
    Traced (Allowed data) s.drive (writeAt s n pos d).2.drive := by
  obtain ⟨tr, htr, hmem, -⟩ := writeSectors_trace (slotLba n) ((written s n pos d).contents n)
    (List.finRange 8) s.drive
  have hfirst : Traced (Allowed data) s.drive (writeSectors (slotLba n)
      ((written s n pos d).contents n) (List.finRange 8) s.drive).2 := by
    refine ⟨tr, htr, fun x hx => ?_⟩
    obtain ⟨i, -, ok, rfl⟩ := hmem x hx
    exact .file hn i _ ok
  rw [writeAt_eq, hlba]
  split
  · split <;> rename_i heq <;> rw [heq] at hfirst
    · exact hfirst.trans (traced_persist { written s n pos d with drive := _ })
    · exact hfirst
  · exact traced_persist (written s n pos d)

theorem Micro.traced {c : Scope} {s s' : State} (h : Micro c s s') (hwf : Wf s.records) :
    Traced (Allowed c.data) s.drive s'.drive := by
  cases h with
  | create type hc => exact traced_persist (s.setRecord _ _)
  | clear hc => exact traced_persist (s.setRecord _ _)
  | refresh hw => exact traced_refresh s _
  | write d hw hpos hn hdata =>
    exact traced_writeAt (hwf.lba _ (hwf.ne_root_of_writable hw) hw.used) hdata _ d

theorem Micros.traced {c : Scope} {s s' : State} (h : Micros c s s') (hwf : Wf s.records) :
    Traced (Allowed c.data) s.drive s'.drive := by
  induction h with
  | refl => exact Traced.refl _ _
  | tail hsteps hstep ih => exact ih.trans (hstep.traced (Micros.wf hsteps hwf))

theorem traced_mount (d : Drive) : Traced (Allowed data) d (mount d).2.drive := by
  have hboot : Traced (Allowed data) d (bootState d).drive := by
    refine (bootState_trace d).mono ?_
    rintro x ⟨lba, ok, rfl⟩
    exact .read lba ok
  rw [mount_eq]
  exact hboot.trans (traced_persist _)

end Steps

/-- An allowed write is in the tail. -/
theorem Allowed.le {data : Slot → Prop} {lba : UInt32} {b : Sector} {ok : Bool}
    (h : Allowed data (.write lba b ok)) : vfsMetaLba ≤ lba := by
  rw [UInt32.le_iff_toNat_le, show vfsMetaLba.toNat = 65024 from rfl]
  cases h with
  | metadata i =>
    rw [toNat_lbaAdd_meta]
    omega
  | @file n hn i =>
    rw [toNat_lbaAdd_slot]
    omega

theorem Reachable.traced {d : Drive} (hd : Fresh d) {s : State} (hs : Reachable d s) :
    Traced (Allowed fun _ => True) d s.drive := by
  induction hs with
  | boot => exact traced_mount d
  | @call s s' op r hrun _ hstep ih =>
    have hinv := Reachable.inv hd hrun
    have hcall := (hinv.micros hstep).traced hinv.wf
    refine ih.trans (hcall.mono fun x hx => ?_)
    cases hx with
    | read lba ok => exact .read lba ok
    | metadata i b ok => exact .metadata i b ok
    | file _ i b ok => exact .file trivial i b ok
  | reboot _ _ ih => exact ih.trans (traced_mount _)

/-- **The filesystem never writes the boot volume.** In every run from an image without the magic, no
`ata_write28` has had an address below `VFS_META_LBA`; a call writes metadata sectors and the sectors
of the slot its scope names (the file the path is, or the one it creates); a mount writes metadata
sectors only. -/
theorem writes_stay_in_tail {d : Drive} (hmagic : hasMagic (d.sectors vfsMetaLba.toNat) = false)
    (htrace : d.trace = []) {s : State} (hs : Reachable d s) :
    (∀ lba b ok, Transfer.write lba b ok ∈ s.drive.trace → vfsMetaLba ≤ lba) ∧
    (∀ op r s', step s op = .ok (r, s') →
      Traced (Allowed (op.scope s.records).data) s.drive s'.drive) ∧
    Traced (Allowed fun _ => False) s.drive (mount s.drive).2.drive := by
  have hd := fresh_of_no_magic hmagic
  have hinv := Reachable.inv hd hs
  refine ⟨?_, ?_, traced_mount _⟩
  · intro lba b ok hmem
    obtain ⟨tr, htr, hP⟩ := Reachable.traced hd hs
    rw [htr, htrace, List.nil_append] at hmem
    exact (hP _ hmem).le
  · intro op r s' hstep
    exact (hinv.micros hstep).traced hinv.wf

/-- A write on a disk that returned 0 has stored the first data sector of the file. -/
theorem mem_trace_writeAt {s : State} {n : Slot} {pos : Nat} {d : List UInt8} (hb : s.diskBacked = true)
    (hok : (writeAt s n pos d).1 = 0) : ∃ tr b, (writeAt s n pos d).2.drive.trace = s.drive.trace ++ tr ∧
      .write (lbaAdd (s.records n).dataLba 0) b true ∈ tr := by
  obtain ⟨tr, htr, -, hall, -⟩ := writeSectors_trace (s.records n).dataLba ((written s n pos d).contents n)
    (List.finRange 8) s.drive
  rw [writeAt_eq, if_pos hb] at hok ⊢
  cases hres : writeSectors (s.records n).dataLba ((written s n pos d).contents n) (List.finRange 8) s.drive with
  | mk ok drive =>
    rw [hres] at hok htr hall
    cases ok with
    | false => exact absurd hok (show ¬ (-1 : Int) = 0 by decide)
    | true =>
      obtain ⟨tr', htr', -⟩ := persist_trace { written s n pos d with drive }
      have hflush : (persist { written s n pos d with drive }).2.drive.trace = drive.trace ++ tr' := htr'
      refine ⟨tr ++ tr', sectorOf ((written s n pos d).contents n) 0, ?_, ?_⟩
      · dsimp only at htr ⊢
        rw [hflush, htr, List.append_assoc]
      · rw [hall rfl]
        exact List.mem_append_left _ (List.mem_map_of_mem (List.mem_finRange 0))

/-- A file below a directory is written. -/
theorem writes_stay_in_tail_nested : ∃ s b, Reachable (blankDisk 65536) s ∧ s.records = writtenTable ∧
    .write (lbaAdd (slotLba 2) 0) b true ∈ s.drive.trace ∧
    ∀ lba b ok, Transfer.write lba b ok ∈ s.drive.trace → vfsMetaLba ≤ lba := by
  have hmagic : hasMagic ((blankDisk 65536).sectors vfsMetaLba.toNat) = false := by decide
  have hd := fresh_blankDisk 65536
  obtain ⟨s₁, s₂, s₃, hmkdir, htouch, hwrite, hrec₂, hrec₃, hcall⟩ :=
    exists_written hd (working_blankDisk (by decide)) (by decide)
  have hs₂ : Reachable (blankDisk 65536) s₂ := (Run.boot.call trivial hmkdir).call trivial htouch
  have hs₃ := hs₂.call trivial hwrite
  have hok : (writeAt s₂ 2 0 [120]).1 = 0 := by rw [hcall]
  obtain ⟨tr, b, htr, hmem⟩ :=
    mem_trace_writeAt (hs₂.healthy hd (working_blankDisk (by decide))).2.1.backed hok
  rw [hcall] at htr
  rw [hrec₂] at hmem
  refine ⟨s₃, b, hs₃, hrec₃, ?_, (writes_stay_in_tail hmagic rfl hs₃).1⟩
  rw [show s₃.drive.trace = _ from htr]
  exact List.mem_append_right _ hmem

/-! ## Whether the sectors exist -/

/-- The data extents of the used files: pairwise disjoint, apart from the metadata, on the disk -/
structure Layout (t : Table) : Prop where
  disjoint : ∀ m n, Writable t m → Writable t n → m ≠ n → ∀ i j,
    (lbaAdd (t m).dataLba i).toNat ≠ (lbaAdd (t n).dataLba j).toNat
  apart : ∀ n, Writable t n → ∀ i j,
    (lbaAdd (t n).dataLba i).toNat ≠ (lbaAdd vfsMetaLba j).toNat
  inside : ∀ n, Writable t n → ∀ i, vfsMetaLba.toNat ≤ (lbaAdd (t n).dataLba i).toNat ∧
    (lbaAdd (t n).dataLba i).toNat < vfsDiskEndLba

/-- Every write to and every read of an existing file returns 0. -/
structure FilesWork (s : State) : Prop where
  write : ∀ (p : PathArg) (n : Slot), fileAt s.records p.chars = some n → ∀ d append,
    ∃ s', step s (.write p d append) = .ok (.code 0, s')
  read : ∀ (p : PathArg) (n : Slot), fileAt s.records p.chars = some n → ∀ cap,
    ∃ b s', step s (.read p cap) = .ok (.data (some b), s')

/-- A working image of `VFS_DISK_END_LBA` sectors with no filesystem in its tail -/
structure Image (d : Drive) : Prop where
  present : d.present = true
  sectorCount : d.sectorCount.toNat = vfsDiskEndLba
  reads : d.readScript = []
  writes : d.writeScript = []
  no_magic : hasMagic (d.sectors vfsMetaLba.toNat) = false

theorem Image.working {d : Drive} (h : Image d) : Working d :=
  ⟨h.present, by rw [h.sectorCount]; decide, h.reads, h.writes⟩

/-- Only slot 63 can break the layout. -/
theorem Wf.layout_iff {t : Table} (h : Wf t) : Layout t ↔ ¬ Writable t 63 := by
  have hlba : ∀ n, Writable t n → (t n).dataLba = slotLba n := by
    intro n hn
    refine h.lba n ?_ hn.used
    rintro rfl
    have := hn.file
    rw [h.root_type] at this
    exact absurd this (by decide)
  constructor
  · intro hl h63
    have := (hl.inside 63 h63 0).2
    rw [hlba 63 h63, toNat_lbaAdd_slot] at this
    exact absurd this (by decide)
  · intro h63
    refine ⟨?_, ?_, ?_⟩
    · intro m n hm hn hne i j
      rw [hlba m hm, hlba n hn]
      exact slot_ne_slot hne i j
    · intro n hn i j
      rw [hlba n hn]
      exact (meta_ne_slot n j i).symm
    · intro n hn i
      have hn63 : n.val ≠ 63 := fun he => h63 ((show n = 63 from Fin.ext he) ▸ hn)
      rw [hlba n hn, toNat_lbaAdd_slot, show vfsMetaLba.toNat = 65024 from rfl,
        show vfsDiskEndLba = 65536 from rfl]
      omega

theorem filesWork_of_serves {s : State} (hwf : Wf s.records) (hh : Healthy s)
    (hs : ∀ n, Writable s.records n → Serves s.drive (s.records n).dataLba) : FilesWork s := by
  refine ⟨fun p n hn d append => ?_, fun p n hn cap => ?_⟩
  · have hsrv := hs n (hwf.writable_of_fileAt hn)
    refine ⟨(writeAt s n (writePos s.records n append) d).2, ?_⟩
    rw [step, hwf.write_eq, hn]
    show Except.ok (Reply.code (writeAt s n (writePos s.records n append) d).1, _) = _
    rw [(hh.writeAt_ok hsrv _ d).2]
    rfl
  · have hsrv := hs n (hwf.writable_of_fileAt hn)
    have hread : step s (.read p cap) = .ok (.data (readAt s n cap).1, (readAt s n cap).2) := by
      rw [step, hwf.read_eq, hn]
      rfl
    rw [hh.readAt_ok hsrv cap] at hread
    exact ⟨_, _, hread⟩

/-! ## Runs that leave slot 63 to directories -/

/-- The call gets as far as filling a slot with a file: a touch of a path that can be created, or a copy
or move of a file onto one. -/
def CreatesFile (t : Table) : Op → Prop
  | .touch p => (newSlot t p.chars).isSome
  | .copy src dst | .move src dst => (fileAt t src.chars).isSome ∧ (newSlot t dst.chars).isSome
  | .mkdir _ | .rmdir _ | .remove _ | .read _ _ | .write _ _ _ | .list _ _ | .stat _ => False

/-- Slots 1 to 62 are all used. -/
def LowSlotsFull (t : Table) : Prop := ∀ i, i ≠ 0 → i ≠ 63 → (t i).used ≠ 0

theorem freeSlot_of_newSlot {t : Table} {p : PathArg} {k : Slot} (h : newSlot t p.chars = some k) :
    freeSlot t = some k := by
  obtain ⟨⟨j, k', x⟩, ht, rfl⟩ := Option.map_eq_some_iff.mp h
  obtain ⟨q, -, hc⟩ := creatable_of_createTarget ht
  exact hc.slot

/-- Slot 63 is filled only when the slots below it are full … -/
theorem lowSlotsFull_of_newSlot {t : Table} {p : PathArg} (h : newSlot t p.chars = some 63) :
    LowSlotsFull t := by
  intro i hi hi63
  refine (freeSlot_eq_some_iff.mp (freeSlot_of_newSlot h)).2.2 i hi ?_
  have : i.val ≠ 63 := fun he => hi63 (Fin.ext he)
  show i.val < 63
  omega

/-- … and then no other slot is. -/
theorem LowSlotsFull.newSlot_eq {t : Table} (h : LowSlotsFull t) {p : PathArg}
    (hp : (newSlot t p.chars).isSome) : newSlot t p.chars = some 63 ∧ (t 63).used = 0 := by
  obtain ⟨k, hk⟩ := Option.isSome_iff_exists.mp hp
  obtain ⟨hk0, hfree, -⟩ := freeSlot_eq_some_iff.mp (freeSlot_of_newSlot hk)
  by_cases hk63 : k = 63
  · subst hk63
    exact ⟨hk, hfree⟩
  · exact absurd hfree (h k hk0 hk63)

section NoSource

variable {s : State} (h : Wf s.records) {src : PathArg} (hsrc : fileAt s.records src.chars = none)
  (dst : PathArg)
include h hsrc

/-- Without a file to read a copy ends before it gets to its target … -/
theorem Wf.copy_of_no_source : vfsCopy s src.chars dst.chars = .ok (-1, s) := by
  rw [vfsCopy, h.read_eq, hsrc]
  rfl

/-- … and so does a move. -/
theorem Wf.move_of_no_source : vfsMove s src.chars dst.chars = .ok (-1, s) := by
  rw [vfsMove, h.copy_of_no_source hsrc dst]
  rfl

end NoSource

/-- A call with slot 63 in its scope creates a file there, or changes nothing. -/
theorem Wf.createsFile_or_eq {s s' : State} (h : Wf s.records) {op : Op} {r : Reply}
    (hstep : step s op = .ok (r, s')) (hfiles : (op.scope s.records).files 63) :
    LowSlotsFull s.records ∧ (CreatesFile s.records op ∨ s' = s) := by
  cases op with
  | touch p => exact ⟨lowSlotsFull_of_newSlot hfiles, Or.inl (Option.isSome_of_eq_some hfiles)⟩
  | copy src dst =>
    refine ⟨lowSlotsFull_of_newSlot hfiles, ?_⟩
    cases hsrc : fileAt s.records src.chars with
    | some n =>
      exact Or.inl ⟨Option.isSome_of_eq_some hsrc, Option.isSome_of_eq_some hfiles⟩
    | none =>
      rw [step, h.copy_of_no_source hsrc dst] at hstep
      cases hstep
      exact Or.inr rfl
  | move src dst =>
    refine ⟨lowSlotsFull_of_newSlot hfiles, ?_⟩
    cases hsrc : fileAt s.records src.chars with
    | some n =>
      exact Or.inl ⟨Option.isSome_of_eq_some hsrc, Option.isSome_of_eq_some hfiles⟩
    | none =>
      rw [step, h.move_of_no_source hsrc dst] at hstep
      cases hstep
      exact Or.inr rfl
  | mkdir | rmdir | remove | read | write | list | stat => exact hfiles.elim

theorem Micro.not_writable {c : Scope} {s s' : State} (hstep : Micro c s s') {n : Slot}
    (hfiles : ¬ c.files n) (h : ¬ Writable s.records n) : ¬ Writable s'.records n := by
  cases hstep with
  | @create q x j k type hc hk hfile =>
    rw [persist_records, setRecord_records]
    rintro ⟨hu, hf⟩
    by_cases hnk : n = k
    · subst hnk
      rw [Function.update_self, newRecord_type] at hf
      cases type with
      | directory => exact absurd hf (by decide)
      | file => exact hfiles (hfile rfl)
    · rw [Function.update_of_ne hnk] at hu hf
      exact h ⟨hu, hf⟩
  | @clear k hc hk =>
    rw [clearUsed_records]
    rintro ⟨hu, hf⟩
    obtain ⟨hu, hnk⟩ := used_clear_iff.mp hu
    rw [Function.update_of_ne hnk] at hf
    exact h ⟨hu, hf⟩
  | refresh hw =>
    rw [refresh_records]
    exact h
  | @write k pos d hw hpos =>
    rw [writeAt_records]
    have hnk : n ≠ k := by
      rintro rfl
      exact h hw
    rintro ⟨hu, hf⟩
    rw [Function.update_of_ne hnk] at hu hf
    exact h ⟨hu, hf⟩

/-- What micro-steps have on the medium at the end: what was there, or a table on the way. -/
theorem Micros.stored {P : Table → Prop} {c : Scope} {s s' : State} (hsteps : Micros c s s')
    (hinv : Inv s) (hh : Healthy s)
    (hP : ∀ {s₁ s₂ : State}, Micro c s₁ s₂ → P s₁.records → P s₂.records) (h : P s.records)
    (hst : ∀ g t, Vfs.stored s.drive = some (g, t) → P t) :
    P s'.records ∧ ∀ g t, Vfs.stored s'.drive = some (g, t) → P t := by
  induction hsteps with
  | refl => exact ⟨h, hst⟩
  | tail hsteps hstep ih =>
    have hnext := hP hstep ih.1
    refine ⟨hnext, fun g t hgt => ?_⟩
    rcases hstep.stored_cases (Micros.wf hsteps hinv.wf) (Micros.healthy hsteps hh).1 with he | he
    · exact ih.2 g t (he ▸ hgt)
    · rw [he] at hgt
      cases hgt
      exact hnext

/-- The calls that leave slot 63 alone, or put a directory there -/
def LeavesLastSlot (s : State) (op : Op) : Prop :=
  ¬ (CreatesFile s.records op ∧ LowSlotsFull s.records)

theorem Run.no_file_63 {d : Drive} (hd : Image d) {mayReboot : State → Prop} {s : State}
    (h : Run LeavesLastSlot mayReboot d s) :
    ¬ Writable s.records 63 ∧ ∀ g t, stored s.drive = some (g, t) → ¬ Writable t 63 := by
  have hinit : ¬ Writable initTable 63 := fun hw => absurd hw.used (by decide)
  have hfresh := fresh_of_no_magic hd.no_magic
  have hflushed : ∀ {e : Drive}, Working e → ¬ Writable (mount e).2.records 63 →
      ∀ g t, stored (mount e).2.drive = some (g, t) → ¬ Writable t 63 := by
    intro e he hrec g t hgt
    rw [stored_mount_of_working he] at hgt
    cases hgt
    exact hrec
  induction h with
  | boot =>
    have hrec : ¬ Writable (mount d).2.records 63 := by
      rw [mount_eq, persist_records, (bootState_of_fresh hfresh).1]
      exact hinit
    exact ⟨hrec, hflushed hd.working hrec⟩
  | @call s s' op r hrun hleaves hstep ih =>
    obtain ⟨hinv, hh, -⟩ := hrun.healthy hfresh hd.working
    by_cases hfiles : (op.scope s.records).files 63
    · obtain ⟨hfull, hcreates | rfl⟩ := hinv.wf.createsFile_or_eq hstep hfiles
      · exact absurd ⟨hcreates, hfull⟩ hleaves
      · exact ih
    · exact (hinv.micros hstep).stored (P := fun t => ¬ Writable t 63) hinv hh
        (fun hm => hm.not_writable hfiles) ih.1 ih.2
  | reboot hrun _ ih =>
    obtain ⟨-, hh, -⟩ := hrun.healthy hfresh hd.working
    have hrec := mount_records (P := fun t => ¬ Writable t 63) hinit ih.2
    exact ⟨hrec, hflushed hh.drive hrec⟩

/-- In any state of any run on the image: everything fits and works exactly if slot 63 is no file. -/
theorem Run.layout_iff {d : Drive} (hd : Image d) {mayCall : State → Op → Prop}
    {mayReboot : State → Prop} {s : State} (h : Run mayCall mayReboot d s) :
    Layout s.records ∧ FilesWork s ↔ ¬ Writable s.records 63 := by
  obtain ⟨hinv, hh, hcount⟩ := h.healthy (fresh_of_no_magic hd.no_magic) hd.working
  constructor
  · intro hl
    exact hinv.wf.layout_iff.mp hl.1
  · intro h63
    refine ⟨hinv.wf.layout_iff.mpr h63, filesWork_of_serves hinv.wf hh fun n hn => ?_⟩
    have hn63 : n.val ≠ 63 := fun he => h63 ((show n = 63 from Fin.ext he) ▸ hn)
    have hsize := hd.sectorCount
    rw [hinv.wf.lba n (hinv.wf.ne_root_of_writable hn) hn.used]
    refine serves_slot hh.drive.present ?_
    rw [hcount, hsize, show vfsDiskEndLba = 65536 from rfl]
    omega

/-! ## A call that reaches slot 63 -/

section Fills

variable {s : State} (h : Wf s.records) (hh : Healthy s) {dst : PathArg} {k : Slot}
  (hk : newSlot s.records dst.chars = some k)
include h hh hk

/-- A touch of a path that can be created leaves a file in the slot. -/
theorem Healthy.touch_of_newSlot : ∃ s', vfsTouch s dst.chars = .ok (0, s') ∧
    fileAt s'.records dst.chars = some k ∧ Wf s'.records := by
  obtain ⟨⟨j, k', x⟩, ht, rfl⟩ := Option.map_eq_some_iff.mp hk
  obtain ⟨s', htouch, -, hfile, hwf⟩ := Healthy.exists_touch h hh ht
  exact ⟨s', htouch, hfile, hwf⟩

variable {src : PathArg} {n : Slot} (hn : fileAt s.records src.chars = some n)
  (hs : Serves s.drive (s.records n).dataLba)
include hn hs

/-- So does a copy of a file that can be read, whether or not writing the bytes succeeds … -/
theorem Healthy.copy_of_newSlot : ∃ r s', vfsCopy s src.chars dst.chars = .ok (r, s') ∧
    fileAt s'.records dst.chars = some k ∧ fileAt s'.records src.chars = some n ∧ Wf s'.records := by
  have hread := h.read_eq src 4096
  have hdata := hh.readAt_ok hs 4096
  have hrec₁ : (readAt s n 4096).2.records = s.records := by rw [readAt_snd, refresh_records]
  have hh₁ : Healthy (readAt s n 4096).2 := by
    rw [readAt_snd]
    exact hh.refresh n
  rw [hn] at hread
  dsimp only at hread
  generalize readAt s n 4096 = x at hread hdata hrec₁ hh₁
  obtain ⟨b, s₁⟩ := x
  dsimp only at hdata hrec₁ hh₁
  subst hdata
  rw [← hrec₁] at h hk hn
  obtain ⟨s₂, htouch, hfile₂, hwf₂⟩ := Healthy.touch_of_newSlot h hh₁ hk
  have hn₂ := h.fileAt_of_touch htouch hn
  obtain ⟨r₃, s₃, hwrite, hsteps₃⟩ := hwf₂.write_micros (c := ⟨fun _ => True, fun _ => True, fun _ => True⟩) dst
    ((List.ofFn (blockAt s.drive (s.records n).dataLba)).take (min (s.records n).size.toNat 4096)) false
    fun _ _ => ⟨trivial, trivial⟩
  have hfile₃ := hwf₂.fileAt_of_write hwrite hfile₂
  have hn₃ := hwf₂.fileAt_of_write hwrite hn₂
  have hwf₃ := hsteps₃.wf hwf₂
  rw [vfsCopy, hread, ok_bind]
  dsimp only
  rw [htouch, ok_bind]
  dsimp only
  rw [if_neg (by simp), show (4096 : UInt32).toNat = 4096 from rfl, hwrite, ok_bind]
  dsimp only
  split
  · exact ⟨_, _, rfl, hfile₃, hn₃, hwf₃⟩
  · exact ⟨_, _, rfl, hfile₃, hn₃, hwf₃⟩

/-- … and a move, which then removes another file, if any. -/
theorem Healthy.move_of_newSlot : ∃ r s', vfsMove s src.chars dst.chars = .ok (r, s') ∧
    Writable s'.records k := by
  obtain ⟨r, s', hcopy, hfile', hn', hwf'⟩ := Healthy.copy_of_newSlot h hh hk hn hs
  have hw' := hwf'.writable_of_fileAt hfile'
  rw [vfsMove, hcopy, ok_bind]
  dsimp only
  split
  · exact ⟨_, _, rfl, hw'⟩
  · have hnk : k ≠ n := by
      rintro rfl
      obtain ⟨-, hfree, -⟩ := freeSlot_eq_some_iff.mp (freeSlot_of_newSlot hk)
      exact (h.writable_of_fileAt hn).used hfree
    rw [hwf'.remove_eq, hn']
    refine ⟨(clearUsed s' n).1, (clearUsed s' n).2, rfl, hw'.congr ?_⟩
    rw [clearUsed_records, Function.update_of_ne hnk]

end Fills

/-- **A call that does not leave slot 63 alone** puts a file there. -/
theorem Healthy.writable_of_not_leaves {s s' : State} (h : Wf s.records) (hh : Healthy s)
    (hcount : s.drive.sectorCount.toNat = vfsDiskEndLba) {op : Op} {r : Reply}
    (hstep : step s op = .ok (r, s')) (hleaves : ¬ LeavesLastSlot s op) : Writable s'.records 63 := by
  obtain ⟨hcreates, hfull⟩ := not_not.mp hleaves
  -- the file that is copied is in a lower slot, so its sectors are on the disk
  have hserves : ∀ {dst : PathArg}, (newSlot s.records dst.chars).isSome → ∀ {src : PathArg} {n : Slot},
      fileAt s.records src.chars = some n → Serves s.drive (s.records n).dataLba := by
    intro dst hdst src n hn
    have hw := h.writable_of_fileAt hn
    have hn63 : n.val ≠ 63 := by
      intro he
      obtain rfl : n = 63 := Fin.ext he
      exact hw.used (hfull.newSlot_eq hdst).2
    rw [h.lba n (h.ne_root_of_writable hw) hw.used]
    refine serves_slot hh.drive.present ?_
    rw [hcount, show vfsDiskEndLba = 65536 from rfl]
    omega
  cases op with
  | touch p =>
    obtain ⟨s₁, htouch, hfile, hwf₁⟩ := Healthy.touch_of_newSlot h hh (hfull.newSlot_eq hcreates).1
    rw [step, htouch] at hstep
    cases hstep
    exact hwf₁.writable_of_fileAt hfile
  | copy src dst =>
    obtain ⟨hsrc, hdst⟩ := hcreates
    obtain ⟨n, hn⟩ := Option.isSome_iff_exists.mp hsrc
    obtain ⟨r₁, s₁, hcopy, hfile, -, hwf₁⟩ :=
      Healthy.copy_of_newSlot h hh (hfull.newSlot_eq hdst).1 hn (hserves hdst hn)
    rw [step, hcopy] at hstep
    cases hstep
    exact hwf₁.writable_of_fileAt hfile
  | move src dst =>
    obtain ⟨hsrc, hdst⟩ := hcreates
    obtain ⟨n, hn⟩ := Option.isSome_iff_exists.mp hsrc
    obtain ⟨r₁, s₁, hmove, hw⟩ :=
      Healthy.move_of_newSlot h hh (hfull.newSlot_eq hdst).1 hn (hserves hdst hn)
    rw [step, hmove] at hstep
    cases hstep
    exact hw
  | mkdir | rmdir | remove | read | write | list | stat => exact hcreates.elim

theorem image_blankDisk : Image (blankDisk 65536) :=
  ⟨rfl, by decide, rfl, rfl, show hasMagic (fun _ => 0) = false by decide⟩

/-! ### Filling the slots -/

/-- The one-character name of the `k`-th file -/
def fillByte (k : Nat) : UInt8 := UInt8.ofNat (64 + k % 63)

theorem toNat_fillByte (k : Nat) : (fillByte k).toNat = 64 + k % 63 := by
  have := Nat.mod_lt k (show 0 < 63 by omega)
  rw [fillByte, UInt8.toNat_ofNat']
  omega

theorem fillByte_ne {k : Nat} {b : UInt8} (hb : b.toNat < 64) : fillByte k ≠ b := by
  intro he
  have := toNat_fillByte k
  rw [he] at this
  omega

theorem goodName_fillByte (k : Nat) : GoodName [fillByte k] := by
  refine ⟨by simp, by simp [vfsNameMax], ?_, ?_, ?_, by simp⟩
  · simpa using fun he => fillByte_ne (by decide) he.symm
  · simpa using fun he => fillByte_ne (by decide) he.symm
  · simpa using fillByte_ne (by decide)

theorem canonical_fillByte (k : Nat) : Canonical [[fillByte k]] :=
  ⟨by simpa using goodName_fillByte k, by simp, by simp [joinParts, joinPart, vfsPathMax]⟩

/-- The path of the `k`-th file -/
def fillPath (k : Nat) : PathArg := (canonical_fillByte k).arg

theorem canon_fillPath (k : Nat) : canon (fillPath k).chars = some ([] ++ [[fillByte k]]) :=
  canon_joinParts (canonical_fillByte k)

/-- Create the first `k` files. -/
def fillTouches (k : Nat) : List Op := (List.range k).map fun i => .touch (fillPath (i + 1))

/-- The table with the first `k` files -/
def fullTable (k : Nat) : Table := fun i =>
  if i = 0 then initTable 0
  else if i.val ≤ k then newRecord .file 0 i [fillByte i]
  else VfsRecord.zero

theorem fullTable_zero : fullTable 0 = initTable := by
  funext i
  by_cases hi : i = 0
  · rw [fullTable, if_pos hi, hi]
  · have : ¬ i.val ≤ 0 := fun h => hi (Fin.ext (Nat.le_zero.mp h))
    rw [fullTable, if_neg hi, if_neg this, initTable, Function.update_of_ne hi]

theorem fullTable_succ {k : Nat} (hk : k + 1 < 64) :
    fullTable (k + 1) = Function.update (fullTable k) ⟨k + 1, hk⟩
      (newRecord .file 0 ⟨k + 1, hk⟩ [fillByte (k + 1)]) := by
  funext i
  by_cases hi : i = ⟨k + 1, hk⟩
  · subst hi
    rw [Function.update_self, fullTable, if_neg (by simp [Fin.ext_iff]), if_pos (le_refl _)]
  · have hne : i.val ≠ k + 1 := fun he => hi (Fin.ext he)
    rw [Function.update_of_ne hi, fullTable, fullTable]
    simp only [show i.val ≤ k + 1 ↔ i.val ≤ k by omega]

theorem freeSlot_fullTable {k : Nat} (hk : k + 1 < 64) :
    freeSlot (fullTable k) = some ⟨k + 1, hk⟩ := by
  rw [freeSlot_eq_some_iff]
  refine ⟨by simp [Fin.ext_iff], ?_, fun i hi hik => ?_⟩
  · rw [fullTable, if_neg (by simp [Fin.ext_iff]), if_neg (by simp)]
    rfl
  · have hik' : i.val ≤ k := Nat.lt_succ_iff.mp hik
    rw [fullTable, if_neg hi, if_pos hik', newRecord_used]
    decide

/-- The next name is not in the table yet. -/
theorem resolve_fullTable {k : Nat} (hk : k + 1 < 64) (hwf : Wf (fullTable k)) :
    resolve (fullTable k) [[fillByte (k + 1)]] = none := by
  rw [Option.eq_none_iff_forall_ne_some]
  intro i hi
  have hp := hwf.resolve_eq_some_iff.mp hi
  obtain ⟨⟨hu, hi0, -, hname⟩, -⟩ := NameTree.Links.path_concat_iff.mp
    (show (links (fullTable k)).Path i ([] ++ [[fillByte (k + 1)]]) from hp)
  have hi0' : i ≠ 0 := hi0
  by_cases hik : i.val ≤ k
  · have hrec : fullTable k i = newRecord .file 0 i [fillByte i] := by
      rw [fullTable, if_neg hi0', if_pos hik]
    simp only [links, hrec, newRecord_chars .file 0 i (goodName_fillByte i)] at hname
    have hb := congrArg UInt8.toNat (List.cons.inj hname).1
    rw [toNat_fillByte, toNat_fillByte] at hb
    have : i.val ≠ 0 := fun he => hi0' (Fin.ext he)
    omega
  · have hrec : fullTable k i = VfsRecord.zero := by
      rw [fullTable, if_neg hi0', if_neg hik]
    rw [links_live, hrec] at hu
    exact hu rfl

/-- A call while fewer than the first `k` files are there -/
def Filling (k : Nat) (s : State) (_ : Op) : Prop := ∃ i < k, s.records = fullTable i

/-- The first `k` touches fill slots 1 to `k`. -/
theorem run_fillTouches (k : Nat) (hk : k < 64) :
    ∃ rs s, run step (mount (blankDisk 65536)).2 (fillTouches k) = .ok (rs, s) ∧
      s.records = fullTable k ∧ Run (Filling k) (fun _ => True) (blankDisk 65536) s := by
  have hfresh := fresh_blankDisk 65536
  induction k with
  | zero =>
    refine ⟨[], _, rfl, ?_, .boot⟩
    rw [mount_eq, persist_records, (bootState_of_fresh hfresh).1, fullTable_zero]
  | succ k ih =>
    obtain ⟨rs, s, hrun, hrec, hs⟩ := ih (by omega)
    have hwf : Wf s.records := (hs.healthy hfresh image_blankDisk.working).1.wf
    have hcanon := canon_fillPath (k + 1)
    have habsent : resolve s.records ([] ++ [[fillByte (k + 1)]]) = none := by
      rw [hrec] at hwf ⊢
      exact resolve_fullTable hk hwf
    have htarget : createTarget s.records (fillPath (k + 1)).chars
        = some (0, ⟨k + 1, hk⟩, [fillByte (k + 1)]) := by
      rw [createTarget_concat hcanon habsent, resolve_nil, hrec, freeSlot_fullTable hk]
      rfl
    obtain ⟨r, s', hpersist⟩ : ∃ r s', persist (s.setRecord ⟨k + 1, hk⟩
        (newRecord .file 0 ⟨k + 1, hk⟩ [fillByte (k + 1)])) = (r, s') := ⟨_, _, rfl⟩
    have htouch : step s (.touch (fillPath (k + 1))) = .ok (.code r, s') := by
      rw [step, hwf.touch_eq, lookup, hcanon, Option.bind_some, habsent, if_neg (by simp),
        hwf.create_eq, htarget]
      simp only [hpersist]
      rfl
    have hs' : Run (Filling (k + 1)) (fun _ => True) (blankDisk 65536) s := by
      refine hs.mono fun _ _ hfill => ?_
      obtain ⟨i, hi, hrec⟩ := hfill
      exact ⟨i, Nat.lt_succ_of_lt hi, hrec⟩
    refine ⟨rs ++ [.code r], s', ?_, ?_, hs'.call ⟨k, Nat.lt_succ_self k, hrec⟩ htouch⟩
    · rw [fillTouches, List.range_succ, List.map_append]
      exact run_concat_ok hrun htouch
    · rw [← show (persist _).2 = s' from congrArg Prod.snd hpersist, persist_records,
        setRecord_records, hrec, fullTable_succ hk]

/-! ## The whole image -/

/-- **When every file slot fits the reserved tail.** In a run on a working image none of whose calls
creates a file while slots 1 to 62 are all used, every state has all data extents disjoint, apart from
the metadata and on the disk, and every write to and read of an existing file returns 0. In any run, a
state has these properties exactly if slot 63 holds no file, and no state behind a call that does create
one there has them. -/
theorem layout_until_last_slot {d : Drive} (hd : Image d) :
    (∀ s, Run LeavesLastSlot (fun _ => True) d s → Layout s.records ∧ FilesWork s) ∧
    (∀ s, Run (fun _ _ => True) (fun _ => True) d s →
      (Layout s.records ∧ FilesWork s ↔ ¬ Writable s.records 63) ∧
      ∀ op r s', step s op = .ok (r, s') → ¬ LeavesLastSlot s op → ¬ Layout s'.records) := by
  refine ⟨fun _ hs => (hs.layout_iff hd).mpr (hs.no_file_63 hd).1, fun s hs => ⟨hs.layout_iff hd, ?_⟩⟩
  intro op r s' hstep hleaves hlayout
  obtain ⟨hinv, hh, hcount⟩ := hs.healthy (fresh_of_no_magic hd.no_magic) hd.working
  have hinv' := (hinv.micros hstep).inv hinv
  refine hinv'.wf.layout_iff.mp hlayout (hh.writable_of_not_leaves hinv.wf ?_ hstep hleaves)
  rw [hcount, hd.sectorCount]

/-- While slot 62 is free a file does not go to slot 63. -/
theorem Filling.leavesLastSlot {s : State} {op : Op} (h : Filling 62 s op) : LeavesLastSlot s op := by
  obtain ⟨i, hi, hrec⟩ := h
  rintro ⟨-, hfull⟩
  apply hfull 62 (by decide) (by decide)
  have hfree : ¬ (62 : Slot).val ≤ i := Nat.not_le.mpr hi
  rw [hrec, fullTable, if_neg (by decide), if_neg hfree]
  rfl

/-- Sixty-two files fit. -/
theorem layout_until_last_slot_full : ∃ rs s,
    run step (mount (blankDisk 65536)).2 (fillTouches 62) = .ok (rs, s) ∧ s.records = fullTable 62 ∧
    Layout s.records ∧ FilesWork s := by
  obtain ⟨rs, s, hrun, hrec, hs⟩ := run_fillTouches 62 (by omega)
  exact ⟨rs, s, hrun, hrec,
    (layout_until_last_slot image_blankDisk).1 s (hs.mono fun _ _ => Filling.leavesLastSlot)⟩

/-- **Sixty-three files do not fit**: on an empty image of 65536 sectors, after 63 touches that all
return, the data of the last file lie outside the disk and it cannot be read. -/
theorem last_file_outside_disk :
    ∃ rs s, run step (mount (blankDisk 65536)).2 (fillTouches 63) = .ok (rs, s) ∧
      ¬ Layout s.records ∧
      ∃ s', step s (.read (fillPath 63) 4096) = .ok (.data none, s') := by
  obtain ⟨rs, s, hrun, hrec, hs⟩ := run_fillTouches 63 (by omega)
  obtain ⟨hinv, hh, hcount⟩ := hs.healthy (fresh_blankDisk 65536) image_blankDisk.working
  have h63 : s.records 63 = newRecord .file 0 63 [fillByte 63] := by
    rw [hrec]
    rfl
  have hw : Writable s.records 63 := ⟨by rw [h63]; decide, by rw [h63]; rfl⟩
  refine ⟨rs, s, hrun, fun hl => hinv.wf.layout_iff.mp hl hw, ?_⟩
  -- the path names slot 63: it is the used record below the root with that name
  have hlookup : lookup s.records (fillPath 63).chars = some 63 := by
    rw [lookup, canon_fillPath, Option.bind_some, hinv.wf.resolve_eq_some_iff]
    rw [NameTree.Links.path_concat_iff]
    refine ⟨⟨hw.used, show (63 : Slot) ≠ 0 by decide, rfl, ?_⟩, ?_⟩
    · show Bytes.chars (s.records 63).name = _
      rw [h63, newRecord_chars .file 0 63 (goodName_fillByte 63)]
    · show (links s.records).Path (parentSlot (s.records 63)) []
      rw [h63]
      exact .root
  have hfile := fileAt_eq_some_iff.mpr ⟨hlookup, hw.file⟩
  have hread : step s (.read (fillPath 63) 4096)
      = .ok (.data (readAt s 63 4096).1, (readAt s 63 4096).2) := by
    rw [step, hinv.wf.read_eq, hfile]
    rfl
  have hfail : ¬ (refresh s 63).1 = true := by
    rw [refresh_fst_iff hh.backed hh.drive.reads, h63, newRecord_dataLba]
    intro hserves
    -- its first sector is number 65536
    have hacc := hserves 0
    simp only [ataTransferAccepts, hcount, Bool.and_eq_true, decide_eq_true_eq] at hacc
    exact absurd hacc.2 (by decide)
  rw [readAt_fst_of_fail (Bool.eq_false_iff.mpr hfail)] at hread
  exact ⟨_, hread⟩

end MinOS.Vfs
