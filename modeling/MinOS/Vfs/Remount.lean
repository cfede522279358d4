/-
# MinOS.Vfs.Remount — what survives a reboot.

A disk-backed state is synced when the medium stores exactly the table and generation in memory. A
`vfs_init` that returns 0 ends synced; a call that returns 0 keeps a synced state synced, for every
table, because no path to a 0 changes a record without flushing afterwards; and a reboot on a working
drive restores the table. Whether later reads agree is a matter of the file data: they do when no file
has its data in the metadata sectors, which `vfs_init` itself rewrites.

The second half is the other direction: what a mount does to a stored table when its reads fail.
-/
import MinOS.Vfs.Query
import MinOS.Vfs.Working

namespace MinOS.Vfs

open MinOS.Ata Machine

/-- The medium stores the table and the generation in memory. -/
def Synced (s : State) : Prop :=
  s.diskBacked = true ∧ stored s.drive = some (s.generation, s.records)

/-! ## What a call that returned has done, on any table -/

theorem create_cases {s s' : State} {path : List UInt8} {type : VfsType} {r : Int}
    (h : create s path type = .ok (r, s')) :
    (r = -1 ∧ s' = s) ∨ ∃ slot record, persist (s.setRecord slot record) = (r, s') := by
  rw [create, bind_eq_ok_iff] at h
  obtain ⟨n, -, h⟩ := h
  cases n with
  | some n => cases h; exact Or.inl ⟨rfl, rfl⟩
  | none =>
    dsimp only at h
    rw [bind_eq_ok_iff] at h
    obtain ⟨pn, -, h⟩ := h
    cases pn with
    | none => cases h; exact Or.inl ⟨rfl, rfl⟩
    | some pn =>
      dsimp only at h
      split at h
      · cases h; exact Or.inl ⟨rfl, rfl⟩
      · split at h
        · cases h; exact Or.inl ⟨rfl, rfl⟩
        · exact Or.inr ⟨_, _, Except.ok.inj h⟩

theorem touch_cases {s s' : State} {path : List UInt8} {r : Int}
    (h : vfsTouch s path = .ok (r, s')) :
    s' = s ∨ ∃ slot record, persist (s.setRecord slot record) = (r, s') := by
  rw [vfsTouch, bind_eq_ok_iff] at h
  obtain ⟨n, -, h⟩ := h
  cases n with
  | some n => cases h; exact Or.inl rfl
  | none => exact (create_cases h).imp And.right id

theorem rmdir_cases {s s' : State} {path : List UInt8} {r : Int}
    (h : vfsRmdir s path = .ok (r, s')) :
    (r = -1 ∧ s' = s) ∨ ∃ slot record, persist (s.setRecord slot record) = (r, s') := by
  rw [vfsRmdir, bind_eq_ok_iff] at h
  obtain ⟨n, -, h⟩ := h
  cases n with
  | none => cases h; exact Or.inl ⟨rfl, rfl⟩
  | some n =>
    dsimp only at h
    split at h
    · cases h; exact Or.inl ⟨rfl, rfl⟩
    · split at h
      · cases h; exact Or.inl ⟨rfl, rfl⟩
      · exact Or.inr ⟨_, _, Except.ok.inj h⟩

theorem remove_cases {s s' : State} {path : List UInt8} {r : Int}
    (h : vfsRemove s path = .ok (r, s')) :
    (r = -1 ∧ s' = s) ∨ ∃ slot record, persist (s.setRecord slot record) = (r, s') := by
  rw [vfsRemove, bind_eq_ok_iff] at h
  obtain ⟨n, -, h⟩ := h
  cases n with
  | none => cases h; exact Or.inl ⟨rfl, rfl⟩
  | some n =>
    dsimp only at h
    split at h
    · cases h; exact Or.inl ⟨rfl, rfl⟩
    · exact Or.inr ⟨_, _, Except.ok.inj h⟩

theorem read_cases {s s' : State} {path : List UInt8} {cap : UInt32} {b : Option (List UInt8)}
    (h : vfsRead s path cap = .ok (b, s')) : s' = s ∨ ∃ n, s' = (refresh s n).2 := by
  rw [vfsRead, bind_eq_ok_iff] at h
  obtain ⟨n, -, h⟩ := h
  cases n with
  | none => cases h; exact Or.inl rfl
  | some n =>
    dsimp only at h
    split at h
    · cases h; exact Or.inl rfl
    · cases hr : refresh s n with
      | mk ok s₁ =>
        rw [hr] at h
        cases ok with
        | false => cases h; exact Or.inr ⟨n, by rw [hr]⟩
        | true =>
          dsimp only at h
          split at h
          · cases h; exact Or.inr ⟨n, by rw [hr]⟩
          · cases h

theorem write_cases {s s' : State} {path d : List UInt8} {append : Bool} {r : Int}
    (h : vfsWrite s path d append = .ok (r, s')) :
    (r = -1 ∧ s' = s) ∨ ∃ n pos, writeAt s n pos d = (r, s') := by
  rw [vfsWrite, bind_eq_ok_iff] at h
  obtain ⟨n, -, h⟩ := h
  cases n with
  | none => cases h; exact Or.inl ⟨rfl, rfl⟩
  | some n =>
    dsimp only at h
    split at h
    · cases h; exact Or.inl ⟨rfl, rfl⟩
    · by_cases hpos : vfsContentMax < (if append then (s.records n).size.toNat else 0)
      · rw [if_pos hpos] at h
        cases h; exact Or.inl ⟨rfl, rfl⟩
      · rw [if_neg hpos] at h
        exact Or.inr ⟨_, _, Except.ok.inj h⟩

/-! ## Staying synced -/

theorem synced_persist {s : State} (hd : s.diskBacked = true) (hok : (persist s).1 = 0) :
    Synced (persist s).2 := by
  refine ⟨by rw [persist_diskBacked]; exact hd, ?_⟩
  rw [stored_of_persist hd hok, persist_generation hd, persist_records]

/-- `vfs_init` on a present drive. -/
theorem synced_vfsInit {s : State} (hp : s.drive.present = true) (hok : (vfsInit s).1 = 0) :
    Synced (vfsInit s).2 := by
  unfold vfsInit at hok ⊢
  simp only [ataPrimaryMasterPresent, hp] at hok ⊢
  cases hl : (loadTable s.drive).1 with
  | none =>
    simp only [if_true, hl] at hok ⊢
    exact synced_persist rfl hok
  | some x =>
    simp only [if_true, hl] at hok ⊢
    exact synced_persist rfl hok

section StaysSynced

variable {s s' : State} (h : Synced s)
include h

theorem Synced.of_setRecord {slot : Slot} {record : VfsRecord}
    (hp : persist (s.setRecord slot record) = (0, s')) : Synced s' := by
  have := synced_persist (s := s.setRecord slot record) h.1 (by rw [hp])
  rwa [hp] at this

theorem Synced.refresh (n : Slot) : Synced (refresh s n).2 := by
  obtain ⟨hp, hc, hs, -⟩ := refresh_frame s n
  refine ⟨by rw [refresh_diskBacked]; exact h.1, ?_⟩
  rw [stored_congr hp hc fun i => by rw [hs], refresh_generation, refresh_records]
  exact h.2

theorem Synced.writeAt {n : Slot} {pos : Nat} {d : List UInt8}
    (hw : writeAt s n pos d = (0, s')) : Synced s' := by
  rw [writeAt_eq, if_pos h.1] at hw
  split at hw
  · have := synced_persist (s := { written s n pos d with drive := _ }) h.1 (by rw [hw])
    rwa [hw] at this
  · cases hw

theorem Synced.create {path : List UInt8} {type : VfsType}
    (hc : create s path type = .ok (0, s')) : Synced s' := by
  obtain ⟨hr, -⟩ | ⟨slot, record, hp⟩ := create_cases hc
  · cases hr
  · exact h.of_setRecord hp

theorem Synced.touch {path : List UInt8} (hc : vfsTouch s path = .ok (0, s')) : Synced s' := by
  obtain rfl | ⟨slot, record, hp⟩ := touch_cases hc
  · exact h
  · exact h.of_setRecord hp

theorem Synced.rmdir {path : List UInt8} (hc : vfsRmdir s path = .ok (0, s')) : Synced s' := by
  obtain ⟨hr, -⟩ | ⟨slot, record, hp⟩ := rmdir_cases hc
  · cases hr
  · exact h.of_setRecord hp

theorem Synced.remove {path : List UInt8} (hc : vfsRemove s path = .ok (0, s')) : Synced s' := by
  obtain ⟨hr, -⟩ | ⟨slot, record, hp⟩ := remove_cases hc
  · cases hr
  · exact h.of_setRecord hp

theorem Synced.read {path : List UInt8} {cap : UInt32} {b : Option (List UInt8)}
    (hc : vfsRead s path cap = .ok (b, s')) : Synced s' := by
  obtain rfl | ⟨n, rfl⟩ := read_cases hc
  · exact h
  · exact h.refresh n

theorem Synced.write {path d : List UInt8} {append : Bool}
    (hc : vfsWrite s path d append = .ok (0, s')) : Synced s' := by
  obtain ⟨hr, -⟩ | ⟨n, pos, hw⟩ := write_cases hc
  · cases hr
  · exact h.writeAt hw

/-- A copy that returned 0 has touched and written with 0: it flushes once or twice. -/
theorem Synced.copy {src dst : List UInt8} (hc : vfsCopy s src dst = .ok (0, s')) : Synced s' := by
  rw [vfsCopy, bind_eq_ok_iff] at hc
  obtain ⟨⟨b, s₁⟩, hread, hc⟩ := hc
  have h₁ := h.read hread
  cases b with
  | none => cases hc
  | some b =>
    dsimp only at hc
    rw [bind_eq_ok_iff] at hc
    obtain ⟨⟨r₂, s₂⟩, htouch, hc⟩ := hc
    dsimp only at hc
    split at hc
    · cases hc
    · rename_i hr₂
      rw [not_not] at hr₂
      subst hr₂
      have h₂ := h₁.touch htouch
      rw [bind_eq_ok_iff] at hc
      obtain ⟨⟨r₃, s₃⟩, hwrite, hc⟩ := hc
      dsimp only at hc
      split at hc
      · cases hc
      · rename_i hr₃
        rw [not_not] at hr₃
        subst hr₃
        cases hc
        exact h₂.write hwrite

theorem Synced.move {src dst : List UInt8} (hc : vfsMove s src dst = .ok (0, s')) : Synced s' := by
  rw [vfsMove, bind_eq_ok_iff] at hc
  obtain ⟨⟨r₁, s₁⟩, hcopy, hc⟩ := hc
  dsimp only at hc
  split at hc
  · cases hc
  · rename_i hr₁
    rw [not_not] at hr₁
    subst hr₁
    exact (h.copy hcopy).remove hc

/-- **Every call that returns 0 keeps a synced state synced.** -/
theorem Synced.step {op : Op} {r : Reply} (hc : step s op = .ok (r, s')) (hr : r.rc = 0) :
    Synced s' := by
  cases op with
  | mkdir p =>
    obtain ⟨c, hx, rfl⟩ := reply_eq_ok_iff.mp hc
    obtain rfl : c = 0 := hr
    exact h.create hx
  | rmdir p =>
    obtain ⟨c, hx, rfl⟩ := reply_eq_ok_iff.mp hc
    obtain rfl : c = 0 := hr
    exact h.rmdir hx
  | touch p =>
    obtain ⟨c, hx, rfl⟩ := reply_eq_ok_iff.mp hc
    obtain rfl : c = 0 := hr
    exact h.touch hx
  | remove p =>
    obtain ⟨c, hx, rfl⟩ := reply_eq_ok_iff.mp hc
    obtain rfl : c = 0 := hr
    exact h.remove hx
  | read p cap =>
    obtain ⟨b, hx, rfl⟩ := reply_eq_ok_iff.mp hc
    exact h.read hx
  | write p d append =>
    obtain ⟨c, hx, rfl⟩ := reply_eq_ok_iff.mp hc
    obtain rfl : c = 0 := hr
    exact h.write hx
  | copy src dst =>
    obtain ⟨c, hx, rfl⟩ := reply_eq_ok_iff.mp hc
    obtain rfl : c = 0 := hr
    exact h.copy hx
  | move src dst =>
    obtain ⟨c, hx, rfl⟩ := reply_eq_ok_iff.mp hc
    obtain rfl : c = 0 := hr
    exact h.move hx
  | list p max =>
    obtain ⟨es, -, hc⟩ := bind_eq_ok_iff.mp hc
    cases hc
    exact h
  | stat p =>
    obtain ⟨st, -, hc⟩ := bind_eq_ok_iff.mp hc
    cases hc
    exact h

end StaysSynced

/-! ## A reboot of a synced state -/

/-- No live file has its data in the metadata sectors. -/
def DataApart (t : Table) : Prop := ∀ n, Findable t n → (t n).type = VfsType.file.code →
  ∀ i j, (lbaAdd (t n).dataLba i).toNat ≠ (lbaAdd vfsMetaLba j).toNat

theorem Wf.dataApart {t : Table} (h : Wf t) : DataApart t := by
  intro n hn hf i j
  have hn0 : n ≠ 0 := by
    rintro rfl
    rw [h.root_type] at hf
    exact absurd hf (by decide)
  rw [h.lba n hn0 (hn.resolve_left hn0)]
  exact (meta_ne_slot n j i).symm

/-- A mount on a working drive loads what is stored. -/
theorem mount_calm {d : Drive} {g : UInt32} {t : Table} (h : stored d = some (g, t)) :
    (mount (calm d)).2.records = t ∧ (mount (calm d)).2.generation = g + 1 := by
  have hp : (calm d).present = true := (Serves.of_stored h).present
  obtain ⟨hrec, hgen⟩ := bootState_of_load hp h
  rw [mount_eq, persist_records, persist_generation (by simpa using hp), hrec, hgen]
  exact ⟨rfl, rfl⟩

theorem Synced.reboot {s : State} (h : Synced s) :
    (mount (calm s.drive)).2.records = s.records ∧
      (mount (calm s.drive)).2.generation = s.generation + 1 :=
  mount_calm h.2

/-- A reboot leaves the data of files that are apart from the metadata. -/
theorem Synced.sameFiles_reboot {s : State} (h : Synced s) (hapart : DataApart s.records) :
    SameFiles s.calm (mount (calm s.drive)).2 := by
  have hp : (calm s.drive).present = true := (Serves.of_stored h.2).present
  obtain ⟨bp, bc, bs, -⟩ := bootState_frame (calm s.drive)
  refine ⟨h.reboot.1, ⟨h.1, ?_⟩, ?_, ?_, ⟨rfl, ?_⟩, ?_⟩
  · rw [mount_eq, persist_diskBacked]
    exact hp
  · rw [mount_eq, persist_present]
    exact bp
  · rw [mount_eq, persist_sectorCount]
    exact bc
  · rw [mount_eq, persist_readScript]
    exact bootState_readScript_of_nil rfl
  · intro n hn hf i
    have hkeep := persist_sectors_of_ne (bootState (calm s.drive)) (hapart n hn hf i)
    rw [bs] at hkeep
    rw [mount_eq]
    exact hkeep

/-- `vfs_init` on a present drive whose writes all succeed returns 0. -/
theorem mount_of_calm {d : Drive} (hw : d.writeScript = []) (hserves : Serves d vfsMetaLba) :
    (mount d).1 = 0 := by
  obtain ⟨bp, bc, -, bw⟩ := bootState_frame d
  rw [mount_eq]
  exact persist_of_calm (bw.trans hw) fun _ => hserves.congr bp bc

theorem synced_mount {d : Drive} (hw : d.writeScript = []) (hserves : Serves d vfsMetaLba) :
    Synced (mount d).2 :=
  synced_vfsInit (s := State.boot d) hserves.present (mount_of_calm hw hserves)

theorem serves_blankDisk : Serves (blankDisk 65536) vfsMetaLba :=
  (working_blankDisk (by decide)).serves

/-- The second boot of a disk with a file on it -/
theorem exists_second_boot : ∃ s, Reachable (blankDisk 65536) s ∧ Inv (mount s.drive).2 ∧
    (mount s.drive).2.records = writtenTable := by
  have hd := fresh_blankDisk 65536
  have hworking : Working (blankDisk 65536) := working_blankDisk (by decide)
  obtain ⟨s₁, s₂, s, hmkdir, htouch, hwrite, -, hrec, -⟩ := exists_written hd hworking (by decide)
  have hs : Reachable (blankDisk 65536) s :=
    ((Run.boot.call trivial hmkdir).call trivial htouch).call trivial hwrite
  obtain ⟨hinv, hh, -⟩ := hs.healthy hd hworking
  have hsync := (((synced_mount rfl serves_blankDisk).step hmkdir rfl).step htouch rfl).step hwrite rfl
  refine ⟨s, hs, hinv.mount hh.flushed, ?_⟩
  rw [← hrec, ← hsync.reboot.1, calm_eq hh.drive.reads hh.drive.writes]

/-! ### A file inside the metadata -/

/-- One file `/a` of 8 bytes whose data are the metadata sectors -/
def overlapTable : Table := Function.update initTable 1
  { newRecord .file 0 1 [97] with dataLba := vfsMetaLba, size := 8 }

/-- That table in memory, over a working drive -/
def overlapMemory : State :=
  { State.boot (blankDisk 65536) with records := overlapTable, diskBacked := true }

/-- The same, flushed -/
def overlapState : State := (persist overlapMemory).2

theorem canon_pathA : canon pathA.chars = some [[97]] := by decide

/-- What a read of a file in the metadata sectors returns right after a flush -/
theorem read_after_persist {s : State} (hd : s.diskBacked = true) (hok : (persist s).1 = 0)
    (hrs : s.drive.readScript = []) (ht : s.records = overlapTable) :
    ∃ s', step (persist s).2 (.read pathA 4096) = .ok (.data (some
      ((List.ofFn (encodeMeta (s.generation + 1) overlapTable)).take 8)), s') := by
  have hfind : find overlapTable pathA.chars = .ok (some 1) := by
    rw [find, normalizeRoot_eq, canon_pathA]
    rfl
  have hserves := Serves.of_stored (stored_of_persist hd hok)
  have hd' : (persist s).2.diskBacked = true := by rw [persist_diskBacked]; exact hd
  have hrefresh : (refresh (persist s).2 1).1 = true := by
    rw [refresh_fst_iff hd' (by rw [persist_readScript]; exact hrs), persist_records, ht]
    exact hserves
  have hcontents := refresh_contents hd' hrefresh
  have hblock : blockAt (persist s).2.drive vfsMetaLba = encodeMeta (s.generation + 1) s.records := by
    unfold persist at hok ⊢
    rw [if_pos hd] at hok ⊢
    exact blockAt_writeSectors (rc_eq_zero_iff.mp hok)
  rw [persist_records, ht, show (overlapTable 1).dataLba = vfsMetaLba from rfl, hblock, ht]
    at hcontents
  have hrec := refresh_records (persist s).2 1
  rw [persist_records, ht] at hrec
  refine ⟨(refresh (persist s).2 1).2, ?_⟩
  simp only [step, vfsRead, persist_records, ht, hfind, ok_bind]
  cases hr : refresh (persist s).2 1 with
  | mk ok s₁ =>
    rw [hr] at hrefresh hcontents hrec
    dsimp only at hrefresh hcontents hrec
    subst hrefresh
    rw [if_neg (by decide)]
    simp only [hrec, hcontents]
    rfl

/-- What is on the medium after a mount whose writes all succeed: the stored table if none of the nine
reads failed, the empty one otherwise. -/
theorem stored_mount {d : Drive} {g : UInt32} {t : Table} (h : stored d = some (g, t))
    (hw : d.writeScript = []) :
    (stored (mount d).2.drive).map Prod.snd =
      some (if (d.readScript.take 9).all (! ·) = true then t else initTable) := by
  have hserves := Serves.of_stored h
  have hload := loadTable_of_stored h
  have hok := mount_of_calm hw hserves
  rw [mount_eq] at hok ⊢
  rw [stored_of_persist hserves.present hok, Option.map_some]
  congr 1
  by_cases hall : (d.readScript.take 9).all (! ·) = true
  · rw [if_pos hall] at hload ⊢
    exact (bootState_of_load hserves.present hload).1
  · rw [if_neg hall] at hload ⊢
    exact (bootState_of_fresh fun _ => hload).1

/-- **When a mount keeps the stored table.** Whatever table a `persist()` that returned 0 has left on
the medium, a `vfs_init` whose writes all succeed leaves it there exactly if none of its nine reads
fails or the table is the one `vfs_init` starts from. -/
theorem mount_keeps_table_iff (s : State) (hd : s.diskBacked = true) (hok : (persist s).1 = 0)
    (fails : List Bool) :
    (stored (mount (scripted (persist s).2.drive fails [])).2.drive).map Prod.snd = some s.records ↔
      (fails.take 9).all (! ·) = true ∨ s.records = initTable := by
  have hst : stored (scripted (persist s).2.drive fails []) = some (s.generation + 1, s.records) := by
    rw [stored_scripted]
    exact stored_of_persist hd hok
  rw [stored_mount hst rfl, show (scripted (persist s).2.drive fails []).readScript = fails from rfl]
  by_cases hall : (fails.take 9).all (! ·) = true
  · simp [hall]
  · simp [hall, eq_comm]

/-- A filesystem with one directory `/a` in memory: what `vfs_mkdir("/a")` flushes on an empty disk -/
def oneDirectory : State :=
  (mount (blankDisk 65536)).2.setRecord 1 (newRecord .directory 0 1 [97])

theorem diskBacked_oneDirectory : oneDirectory.diskBacked = true := by
  show (mount (blankDisk 65536)).2.diskBacked = true
  rw [mount_eq, persist_diskBacked]
  rfl

theorem persist_oneDirectory : (persist oneDirectory).1 = 0 := by
  obtain ⟨bp, bc, -, bw⟩ := bootState_frame (blankDisk 65536)
  apply persist_of_calm
  · show (mount (blankDisk 65536)).2.drive.writeScript = []
    rw [mount_eq]
    exact persist_writeScript_of_nil _ bw
  · intro _
    show Serves (mount (blankDisk 65536)).2.drive vfsMetaLba
    rw [mount_eq]
    exact serves_blankDisk.congr (by rw [persist_present, bp]) (by rw [persist_sectorCount, bc])

theorem mount_keeps_table_calm :
    (stored (mount (scripted (persist oneDirectory).2.drive [] [])).2.drive).map Prod.snd
      = some oneDirectory.records :=
  (mount_keeps_table_iff oneDirectory diskBacked_oneDirectory persist_oneDirectory []).mpr
    (Or.inl rfl)

/-- **One failed read and the stored directory is gone**: the empty table is flushed over it. -/
theorem mount_destroys_table :
    (persist oneDirectory).1 = 0 ∧
    (stored (mount (scripted (persist oneDirectory).2.drive [true] [])).2.drive).map Prod.snd
      ≠ some oneDirectory.records := by
  refine ⟨persist_oneDirectory, ?_⟩
  have hst : stored (scripted (persist oneDirectory).2.drive [true] [])
      = some (oneDirectory.generation + 1, oneDirectory.records) := by
    rw [stored_scripted]
    exact stored_of_persist diskBacked_oneDirectory persist_oneDirectory
  rw [stored_mount hst rfl]
  intro heq
  have hused := congrArg (fun t : Table => (t 1).used) (Option.some.inj heq)
  have hone : oneDirectory.records 1 = newRecord .directory 0 1 [97] := by
    rw [oneDirectory, setRecord_records, Function.update_self]
  rw [hone] at hused
  exact absurd hused (by decide)

end MinOS.Vfs
