/-
# MinOS.Vfs.Load — runs from a table that was loaded.

`vfs_init` loads whatever 64 records the metadata sectors hold. If the table is a safe one
(`SafeTable`), every later call returns, and every sector it writes is a metadata sector of a flush or a
data sector: that is `loaded_table_safe`, over all runs. One thing is left to the run, because no table is
safe from it: a file created in slot 63 has its sectors past `VFS_DISK_END_LBA`.

On other tables the code leaves its arrays; `loaded_parent_leaves_table` has a parent index past the end.
-/
import MinOS.Vfs.Layout
import MinOS.Vfs.Remount
import MinOS.Vfs.SafeTable

namespace MinOS.Vfs

open MinOS.Ata Machine
open Bytes (chars Terminated)

/-! ## What `vfs_init` reads of the names -/

/-- `serial_printf("… name=%s …", records[i].name)`: the characters up to the NUL -/
def printName (r : VfsRecord) : Except Fault (List UInt8) :=
  if 0 ∈ List.ofFn r.name then .ok (chars r.name) else .error .nameIndex

/-- The loop of `vfs_init` that prints the used records, over the records that are left -/
def printRecords (t : Table) : List Slot → Except Fault (List (List UInt8))
  | [] => .ok []
  | i :: is =>
    if (t i).used = 0 then printRecords t is
    else do
      let name ← printName (t i)
      let names ← printRecords t is
      .ok (name :: names)

/-- A boot with the names it prints -/
def mountPrinting (d : Drive) : Except Fault (List (List UInt8) × Int × State) := do
  let names ← printRecords (bootState d).records slots
  .ok (names, mount d)

theorem printRecords_runs {t : Table} (h : ∀ i, i ≠ 0 → (t i).used ≠ 0 → Terminated (t i).name)
    (is : List Slot) (his : ∀ i ∈ is, i ≠ 0) : ∃ names, printRecords t is = .ok names := by
  induction is with
  | nil => exact ⟨[], rfl⟩
  | cons i is ih =>
    obtain ⟨names, hnames⟩ := ih fun k hk => his k (List.mem_cons_of_mem i hk)
    rw [printRecords]
    by_cases hused : (t i).used = 0
    · rw [if_pos hused]
      exact ⟨names, hnames⟩
    · obtain ⟨j, hj⟩ := h i (his i List.mem_cons_self) hused
      have hprint : printName (t i) = .ok (chars (t i).name) := if_pos (List.mem_ofFn.mpr ⟨j, hj⟩)
      rw [if_neg hused, hprint, ok_bind, hnames]
      exact ⟨_, rfl⟩

/-! ## Transfers -/

/-- A read, a sector of a flush, or a write that goes to a data sector if the drive serves it at all -/
inductive Contained (served : UInt32 → Bool) : Transfer → Prop
  | read (lba : UInt32) (ok : Bool) : Contained served (.read lba ok)
  | flush (i : Fin 8) (generation : UInt32) (t : Table) (ok : Bool) :
      Contained served (.write (lbaAdd vfsMetaLba i) (sectorOf (encodeMeta generation t) i) ok)
  | data {lba : UInt32} (b : Sector) (ok : Bool)
      (h : served lba = true → vfsDataLba.toNat ≤ lba.toNat ∧ lba.toNat < vfsDiskEndLba) :
      Contained served (.write lba b ok)

variable {served : UInt32 → Bool}

theorem contained_persist (s : State) : Traced (Contained served) s.drive (persist s).2.drive := by
  refine (persist_trace s).mono ?_
  rintro x ⟨i, ok, rfl⟩
  exact Contained.flush i _ _ ok

theorem contained_refresh (s : State) (n : Slot) :
    Traced (Contained served) s.drive (refresh s n).2.drive := by
  refine (refresh_trace s n).mono ?_
  rintro x ⟨lba, ok, rfl⟩
  exact Contained.read lba ok

/-- A write of the eight sectors from `lba` on; if the drive refuses the first, it is the only one. -/
theorem contained_writeSectors {lba : UInt32} (h : DataSectors served lba) {d : Drive}
    (hserved : ∀ lba, ataTransferAccepts d lba = served lba) (b : Block) :
    Traced (Contained served) d (writeSectors lba b (List.finRange 8) d).2 := by
  by_cases hfirst : served lba = true
  · obtain ⟨tr, htr, hmem, -⟩ := writeSectors_trace lba b (List.finRange 8) d
    refine ⟨tr, htr, ?_⟩
    intro x hx
    obtain ⟨i, -, ok, rfl⟩ := hmem x hx
    exact Contained.data _ ok (h hfirst i)
  · have hlba : lbaAdd lba 0 = lba := UInt32.add_zero lba
    have hrefused : (ataWrite28 d (lbaAdd lba 0) (sectorOf b 0)).1 = false := by
      rw [hlba]
      apply Bool.eq_false_iff.mpr
      intro hok
      have haccepts := (ataWrite28_eq_true d _ _ hok).1
      rw [hserved] at haccepts
      exact hfirst haccepts
    -- The loop ends at its first write, which the drive refuses.
    have hlist : List.finRange 8 = 0 :: (List.finRange 8).tail := by decide
    rw [hlist, writeSectors_cons_fail lba b _ hrefused]
    refine ⟨_, ataWrite28_trace d _ _, ?_⟩
    intro x hx
    rw [List.mem_singleton] at hx
    rw [hx, hlba]
    exact Contained.data _ _ fun hs => absurd hs hfirst

/-! ## The state of a run -/

/-- The invariant of a run that booted on `d₀`: a safe table, the same drive, contained transfers -/
structure SafeState (d₀ : Drive) (s : State) : Prop where
  table : SafeTable (ataTransferAccepts d₀) s.records
  present : s.drive.present = d₀.present
  sectorCount : s.drive.sectorCount = d₀.sectorCount
  traced : Traced (Contained (ataTransferAccepts d₀)) d₀ s.drive

section Calls

variable {d₀ : Drive} {s : State} (h : SafeState d₀ s)
include h

theorem SafeState.accepts_eq (lba : UInt32) : ataTransferAccepts s.drive lba = ataTransferAccepts d₀ lba :=
  ataTransferAccepts_congr h.present h.sectorCount lba

/-- A flush of a safe table -/
theorem SafeState.persist {t : Table} (ht : SafeTable (ataTransferAccepts d₀) t) :
    SafeState d₀ (persist { s with records := t }).2 := by
  refine ⟨?_, ?_, ?_, h.traced.trans (contained_persist _)⟩
  · rw [persist_records]
    exact ht
  · rw [persist_present]
    exact h.present
  · rw [persist_sectorCount]
    exact h.sectorCount

theorem SafeState.refresh (n : Slot) : SafeState d₀ (refresh s n).2 := by
  obtain ⟨hpresent, hcount, -, -⟩ := refresh_frame s n
  refine ⟨?_, hpresent.trans h.present, hcount.trans h.sectorCount,
    h.traced.trans (contained_refresh s n)⟩
  rw [refresh_records]
  exact h.table

/-- A write to a file that a call can name -/
theorem SafeState.writeAt {n : Slot} {pos : Nat} (hfile : NamedFile s.records n)
    (hpos : pos ≤ vfsContentMax) (d : List UInt8) : SafeState d₀ (writeAt s n pos d).2 := by
  have htable : SafeTable (ataTransferAccepts d₀) (written s n pos d).records := by
    rw [written_records]
    exact h.table.resize n (writtenSize_le hpos d)
  -- With a drive the data sectors go first, and a failed one leaves the flush out.
  rw [writeAt_eq]
  split
  · have hsectors := contained_writeSectors (h.table.sectors n hfile) h.accepts_eq
      ((written s n pos d).contents n)
    have hpresent := writeSectors_present (s.records n).dataLba ((written s n pos d).contents n)
      (List.finRange 8) s.drive
    have hcount := writeSectors_sectorCount (s.records n).dataLba ((written s n pos d).contents n)
      (List.finRange 8) s.drive
    have hmid : ∀ e, e = (writeSectors (s.records n).dataLba ((written s n pos d).contents n)
        (List.finRange 8) s.drive).2 → SafeState d₀ { written s n pos d with drive := e } := by
      rintro e rfl
      exact ⟨htable, hpresent.trans h.present, hcount.trans h.sectorCount, h.traced.trans hsectors⟩
    split
    · rename_i e heq
      exact (hmid e (by rw [heq])).persist htable
    · rename_i e heq
      exact hmid e (by rw [heq])
  · have hmid : SafeState d₀ (written s n pos d) := ⟨htable, h.present, h.sectorCount, h.traced⟩
    exact hmid.persist htable

/-! ### Calls that change the table -/

/-- The drive ends where the filesystem does, or slot 63 is not next. -/
def FitsDisk (d₀ : Drive) (t : Table) : Prop :=
  freeSlot t = some 63 → d₀.sectorCount.toNat ≤ vfsDiskEndLba

omit h in
theorem dataSectors_slotLba {k : Slot} (hk : k = 63 → d₀.sectorCount.toNat ≤ vfsDiskEndLba) :
    DataSectors (ataTransferAccepts d₀) (slotLba k) := by
  intro _ j hserved
  have hdata : vfsDataLba.toNat = 65032 := rfl
  have hend : vfsDiskEndLba = 65536 := rfl
  have hlba := toNat_lbaAdd_slot k j
  have hcount : (lbaAdd (slotLba k) j).toNat < d₀.sectorCount.toNat := by
    have hlt := (Bool.and_eq_true_iff.mp hserved).2
    exact UInt32.lt_iff_toNat_lt.mp (of_decide_eq_true hlt)
  refine ⟨by omega, ?_⟩
  by_cases hlast : k = 63
  · have := hk hlast
    omega
  · have hk63 : k.val ≠ 63 := fun he => hlast (Fin.ext he)
    omega

theorem SafeState.create_runs (p : PathArg) (type : VfsType)
    (hlast : type = .file → FitsDisk d₀ s.records) :
    ∃ r s', create s p.chars type = .ok (r, s') ∧ SafeState d₀ s' := by
  obtain ⟨n, hn, -⟩ := h.table.find_runs p
  rw [create, hn, ok_bind]
  cases n with
  | some n => exact ⟨-1, s, rfl, h⟩
  | none =>
    obtain ⟨pn, hpn, hfound⟩ := h.table.parentAndName_runs p
    dsimp only
    rw [hpn, ok_bind]
    cases pn with
    | none => exact ⟨-1, s, rfl, h⟩
    | some pn =>
      obtain ⟨j, x⟩ := pn
      obtain ⟨hdir, q, hc, hj⟩ := hfound j x rfl
      dsimp only
      split
      · exact ⟨-1, s, rfl, h⟩
      · cases hslot : freeSlot s.records with
        | none => exact ⟨-1, s, rfl, h⟩
        | some k =>
          have hsectors : type = .file → DataSectors (ataTransferAccepts d₀) (slotLba k) := by
            intro hfile
            apply dataSectors_slotLba
            rintro rfl
            exact hlast hfile hslot
          exact ⟨_, _, rfl, h.persist (h.table.create hslot hdir hc hj hsectors)⟩

theorem SafeState.touch_runs (p : PathArg)
    (hlast : find s.records p.chars = .ok none → FitsDisk d₀ s.records) :
    ∃ r s', vfsTouch s p.chars = .ok (r, s') ∧ SafeState d₀ s' := by
  obtain ⟨n, hn, -⟩ := h.table.find_runs p
  rw [vfsTouch, hn, ok_bind]
  cases n with
  | some n => exact ⟨0, s, rfl, h⟩
  | none => exact h.create_runs p .file fun _ => hlast hn

theorem SafeState.rmdir_runs (p : PathArg) :
    ∃ r s', vfsRmdir s p.chars = .ok (r, s') ∧ SafeState d₀ s' := by
  obtain ⟨n, hn, -⟩ := h.table.find_runs p
  rw [vfsRmdir, hn, ok_bind]
  cases n with
  | none => exact ⟨-1, s, rfl, h⟩
  | some n =>
    dsimp only
    split
    · exact ⟨-1, s, rfl, h⟩
    · split
      · exact ⟨-1, s, rfl, h⟩
      · rename_i hchildren
        -- No used record has it for a parent, so no chain goes through it.
        refine ⟨_, _, rfl, h.persist (h.table.clear ?_)⟩
        intro i stack hi hanchor
        exact notMem_chain_of_childless (Bool.eq_false_iff.mpr hchildren) hi hanchor

theorem SafeState.remove_runs (p : PathArg) :
    ∃ r s', vfsRemove s p.chars = .ok (r, s') ∧ SafeState d₀ s' := by
  obtain ⟨n, hn, -⟩ := h.table.find_runs p
  rw [vfsRemove, hn, ok_bind]
  cases n with
  | none => exact ⟨-1, s, rfl, h⟩
  | some n =>
    dsimp only
    split
    · exact ⟨-1, s, rfl, h⟩
    · rename_i hguard
      rw [not_or, not_not] at hguard
      have hfile := h.table.namedFile_of_find hn hguard.2
      -- A file that was found has a name, and no chain goes through such a file.
      refine ⟨_, _, rfl, h.persist (h.table.clear ?_)⟩
      intro i stack _ hanchor hmem
      exact hanchor.stays n hmem hfile

/-! ### Reading and writing -/

theorem SafeState.read_runs (p : PathArg) (cap : UInt32) :
    ∃ b s', vfsRead s p.chars cap = .ok (b, s') ∧ SafeState d₀ s' ∧ s'.records = s.records := by
  obtain ⟨n, hn, -⟩ := h.table.find_runs p
  rw [vfsRead, hn, ok_bind]
  cases n with
  | none => exact ⟨none, s, rfl, h, rfl⟩
  | some n =>
    dsimp only
    split
    · exact ⟨none, s, rfl, h, rfl⟩
    · rename_i hguard
      have hfile := h.table.namedFile_of_find hn (not_not.mp hguard)
      have hnext := h.refresh n
      have hrecords := refresh_records s n
      cases hrefresh : Vfs.refresh s n with
      | mk ok s₁ =>
        rw [hrefresh] at hnext hrecords
        dsimp only at hnext hrecords
        cases ok with
        | false => exact ⟨none, s₁, rfl, hnext, hrecords⟩
        | true =>
          -- The copy out of `contents[n]` is bounded by the stored size.
          have hwant : min (s₁.records n).size.toNat cap.toNat ≤ vfsContentMax := by
            rw [hrecords]
            exact (Nat.min_le_left _ _).trans (h.table.size n hfile)
          dsimp only
          rw [if_pos hwant]
          exact ⟨_, s₁, rfl, hnext, hrecords⟩

theorem SafeState.write_runs (p : PathArg) (d : List UInt8) (append : Bool) :
    ∃ r s', vfsWrite s p.chars d append = .ok (r, s') ∧ SafeState d₀ s' := by
  obtain ⟨n, hn, -⟩ := h.table.find_runs p
  rw [vfsWrite, hn, ok_bind]
  cases n with
  | none => exact ⟨-1, s, rfl, h⟩
  | some n =>
    dsimp only
    split
    · exact ⟨-1, s, rfl, h⟩
    · rename_i hguard
      have hfile := h.table.namedFile_of_find hn (not_not.mp hguard)
      by_cases hpos : vfsContentMax < if append then (s.records n).size.toNat else 0
      · rw [if_pos hpos]
        exact ⟨-1, s, rfl, h⟩
      · rw [if_neg hpos]
        exact ⟨_, _, rfl, h.writeAt hfile (Nat.le_of_not_lt hpos) d⟩

theorem SafeState.copy_runs (src dst : PathArg)
    (hlast : find s.records dst.chars = .ok none → FitsDisk d₀ s.records) :
    ∃ r s', vfsCopy s src.chars dst.chars = .ok (r, s') ∧ SafeState d₀ s' := by
  obtain ⟨b, s₁, hread, h₁, hrecords⟩ := h.read_runs src 4096
  rw [vfsCopy, hread, ok_bind]
  cases b with
  | none => exact ⟨-1, s₁, rfl, h₁⟩
  | some b =>
    -- The read changed no record: the touch finds the table of the start.
    rw [← hrecords] at hlast
    obtain ⟨r₂, s₂, htouch, h₂⟩ := h₁.touch_runs dst hlast
    dsimp only
    rw [htouch, ok_bind]
    dsimp only
    split
    · exact ⟨-1, s₂, rfl, h₂⟩
    · obtain ⟨r₃, s₃, hwrite, h₃⟩ := h₂.write_runs dst b false
      rw [hwrite, ok_bind]
      dsimp only
      split
      · exact ⟨-1, s₃, rfl, h₃⟩
      · exact ⟨0, s₃, rfl, h₃⟩

theorem SafeState.move_runs (src dst : PathArg)
    (hlast : find s.records dst.chars = .ok none → FitsDisk d₀ s.records) :
    ∃ r s', vfsMove s src.chars dst.chars = .ok (r, s') ∧ SafeState d₀ s' := by
  obtain ⟨r₁, s₁, hcopy, h₁⟩ := h.copy_runs src dst hlast
  rw [vfsMove, hcopy, ok_bind]
  dsimp only
  split
  · exact ⟨-1, s₁, rfl, h₁⟩
  · exact h₁.remove_runs src

theorem SafeState.list_runs (p : PathArg) (max : UInt32) : ∃ es, vfsList s p.chars max = .ok es := by
  obtain ⟨n, hn, -⟩ := h.table.find_runs p
  rw [vfsList, hn, ok_bind]
  cases n with
  | none => exact ⟨none, rfl⟩
  | some n =>
    dsimp only
    split
    · exact ⟨none, rfl⟩
    · exact ⟨_, rfl⟩

theorem SafeState.stat_runs (p : PathArg) : ∃ st, vfsStatPath s p.chars = .ok st := by
  obtain ⟨n, hn, -⟩ := h.table.find_runs p
  rw [vfsStatPath, hn, ok_bind]
  cases n with
  | none => exact ⟨none, rfl⟩
  | some n => exact ⟨_, rfl⟩

end Calls

/-! ## Runs -/

/-- The call creates no file in slot 63 of a drive that goes on after the filesystem. -/
def KeepsToDisk (d₀ : Drive) (t : Table) : Op → Prop
  | .touch p | .copy _ p | .move _ p => find t p.chars = .ok none → FitsDisk d₀ t
  | _ => True

/-- A call that returns a code and a safe state is a step to a safe state. -/
theorem SafeState.of_call {d₀ : Drive} {ρ : Type} {x : Except Fault (ρ × State)} {reply : ρ → Reply}
    (hx : ∃ r s', x = .ok (r, s') ∧ SafeState d₀ s') :
    ∃ r s', (do let y ← x; return y.map reply id) = Except.ok (r, s') ∧ SafeState d₀ s' := by
  obtain ⟨r, s', rfl, h'⟩ := hx
  exact ⟨reply r, s', rfl, h'⟩

/-- **Every call on a safe state returns**, and leaves a safe state. -/
theorem SafeState.step_runs {d₀ : Drive} {s : State} (h : SafeState d₀ s) (op : Op)
    (hop : KeepsToDisk d₀ s.records op) : ∃ r s', step s op = .ok (r, s') ∧ SafeState d₀ s' := by
  cases op with
  | mkdir p => exact SafeState.of_call (h.create_runs p .directory fun hfile => nomatch hfile)
  | rmdir p => exact SafeState.of_call (h.rmdir_runs p)
  | touch p => exact SafeState.of_call (h.touch_runs p hop)
  | remove p => exact SafeState.of_call (h.remove_runs p)
  | read p cap =>
    obtain ⟨b, s', hread, h', -⟩ := h.read_runs p cap
    exact SafeState.of_call ⟨b, s', hread, h'⟩
  | write p d append => exact SafeState.of_call (h.write_runs p d append)
  | copy src dst => exact SafeState.of_call (h.copy_runs src dst hop)
  | move src dst => exact SafeState.of_call (h.move_runs src dst hop)
  | list p max =>
    obtain ⟨es, hlist⟩ := h.list_runs p max
    exact ⟨.entries es, s, by rw [step, hlist]; rfl, h⟩
  | stat p =>
    obtain ⟨st, hstat⟩ := h.stat_runs p
    exact ⟨.stat st, s, by rw [step, hstat]; rfl, h⟩

/-- A well-formed table is safe on a drive that has the sectors of its files in the filesystem. -/
theorem Wf.safe_to_load {t : Table} (h : Wf t) {d₀ : Drive}
    (hlast : Writable t 63 → d₀.sectorCount.toNat ≤ vfsDiskEndLba) :
    SafeTable (ataTransferAccepts d₀) t := by
  apply h.safeTable
  intro i hi
  apply dataSectors_slotLba
  rintro rfl
  exact hlast hi

theorem safeTable_initTable (d₀ : Drive) : SafeTable (ataTransferAccepts d₀) initTable := by
  apply wf_initTable.safe_to_load
  intro hw
  exact absurd hw.file (by decide)

/-- The boot reads; what it has in memory is the stored table or the empty one. -/
theorem safeState_bootState {d : Drive}
    (hload : ∀ g t, stored d = some (g, t) → SafeTable (ataTransferAccepts d) t) :
    SafeState d (bootState d) := by
  obtain ⟨hpresent, hcount, -, -⟩ := bootState_frame d
  refine ⟨?_, hpresent, hcount, ?_⟩
  · -- Either nothing was loaded and the table is the empty one, or it is what is stored.
    by_cases hfresh : Fresh d
    · rw [(bootState_of_fresh hfresh).1]
      exact safeTable_initTable _
    · rw [Fresh, Classical.not_imp] at hfresh
      obtain ⟨hp, hsome⟩ := hfresh
      obtain ⟨⟨g, t⟩, hl⟩ := Option.ne_none_iff_exists'.mp hsome
      rw [(bootState_of_load hp hl).1]
      exact hload g t (stored_of_loadTable hl)
  · refine (bootState_trace d).mono ?_
    rintro x ⟨lba, ok, rfl⟩
    exact Contained.read lba ok

theorem safeState_mount {d : Drive}
    (hload : ∀ g t, stored d = some (g, t) → SafeTable (ataTransferAccepts d) t) :
    SafeState d (mount d).2 := by
  have hboot := safeState_bootState hload
  rw [mount_eq]
  exact hboot.persist hboot.table

theorem Run.safeState {d : Drive}
    (hload : ∀ g t, stored d = some (g, t) → SafeTable (ataTransferAccepts d) t) {s : State}
    (hs : Run (fun s op => KeepsToDisk d s.records op) (fun _ => False) d s) : SafeState d s := by
  induction hs with
  | boot => exact safeState_mount hload
  | @call s s' op r _ hop hstep ih =>
    obtain ⟨r', s'', hstep', h''⟩ := ih.step_runs op hop
    have heq : s' = s'' := congrArg Prod.snd (Except.ok.inj (hstep.symm.trans hstep'))
    rw [heq]
    exact h''
  | reboot _ hr => exact hr.elim

/-- **A run from a safe table stays in bounds.** If the table on the drive is safe, `vfs_init` reads no
name past its end; and in every state of a run that creates no file in slot 63 of a larger drive, every
call returns without leaving an array, and all that was written so far are flushes and data sectors. -/
theorem loaded_table_safe (d : Drive)
    (hload : ∀ g t, stored d = some (g, t) → SafeTable (ataTransferAccepts d) t) :
    (∃ r, mountPrinting d = .ok r) ∧
    ∀ s, Run (fun s op => KeepsToDisk d s.records op) (fun _ => False) d s →
      (∀ op, KeepsToDisk d s.records op → ∃ r s', step s op = .ok (r, s')) ∧
      Traced (Contained (ataTransferAccepts d)) d s.drive := by
  constructor
  · obtain ⟨names, hnames⟩ := printRecords_runs (safeState_bootState hload).table.name slots
      fun i hi => mem_slots.mp hi
    exact ⟨(names, mount d), by rw [mountPrinting, hnames]; rfl⟩
  · intro s hs
    have hsafe := Run.safeState hload hs
    refine ⟨?_, hsafe.traced⟩
    intro op hop
    obtain ⟨r, s', hstep, -⟩ := hsafe.step_runs op hop
    exact ⟨r, s', hstep⟩

/-- The table `t`, flushed to an empty disk of the size `mkdisk.py` makes -/
def storedDisk (t : Table) : Drive :=
  (persist { State.boot (blankDisk 65536) with records := t, diskBacked := true }).2.drive

theorem stored_storedDisk (t : Table) : stored (storedDisk t) = some (1, t) :=
  stored_of_persist rfl (persist_of_calm rfl fun _ => serves_blankDisk)

/-- Booting from that disk loads the table. -/
theorem records_mount_storedDisk (t : Table) : (mount (storedDisk t)).2.records = t := by
  have hload := loadTable_of_stored (stored_storedDisk t)
  have hreads : (storedDisk t).readScript = [] := persist_readScript _
  rw [hreads] at hload
  rw [mount_eq, persist_records]
  exact (bootState_of_load (Serves.of_stored (stored_storedDisk t)).present hload).1

/-- A file `/a` under the root -/
def fileTable : Table := Function.update initTable 1 (newRecord .file 0 1 [97])

theorem safeTable_fileTable : SafeTable (ataTransferAccepts (storedDisk fileTable)) fileTable := by
  apply (safeTable_initTable (storedDisk fileTable)).create (q := []) (j := 0)
  · rfl
  · rfl
  · exact canonical_of_canon canon_pathA
  · exact Or.inl rfl
  · intro _
    apply dataSectors_slotLba
    intro hslot
    cases hslot

theorem loaded_table_safe_file :
    stored (storedDisk fileTable) = some (1, fileTable) ∧
    (∃ r, mountPrinting (storedDisk fileTable) = .ok r) ∧
    ∃ r s', step (mount (storedDisk fileTable)).2 (.write pathA [1, 2, 3] false) = .ok (r, s') := by
  have hload : ∀ g t, stored (storedDisk fileTable) = some (g, t) →
      SafeTable (ataTransferAccepts (storedDisk fileTable)) t := by
    intro g t h
    rw [stored_storedDisk] at h
    cases h
    exact safeTable_fileTable
  obtain ⟨hprint, hruns⟩ := loaded_table_safe (storedDisk fileTable) hload
  exact ⟨stored_storedDisk fileTable, hprint, (hruns _ .boot).1 (.write pathA [1, 2, 3] false) trivial⟩

/-! ## Tables that are not safe -/

/-- A directory `/a` whose parent is record 100 -/
def strayTable : Table :=
  Function.update initTable 1 { newRecord .directory 0 1 [97] with parent := 100 }

/-- **A stored parent index past the table**: the first lookup reads `records[100]`. -/
theorem loaded_parent_leaves_table :
    hasMagic ((storedDisk strayTable).sectors vfsMetaLba.toNat) = true ∧
    stored (storedDisk strayTable) = some (1, strayTable) ∧
    step (mount (storedDisk strayTable)).2 (.stat pathA) = .error .recordIndex := by
  have hstored := stored_storedDisk strayTable
  have hfind : find strayTable pathA.chars = .error .recordIndex := by
    rw [find, normalizeRoot_eq, canon_pathA]
    rfl
  refine ⟨?_, hstored, ?_⟩
  · rw [stored_eq] at hstored
    split at hstored
    · rename_i hc
      exact hc.2
    · cases hstored
  · rw [step, vfsStatPath, records_mount_storedDisk, hfind]
    rfl

end MinOS.Vfs
