/-
# MinOS.Vfs.Codec — the packed metadata, and what a mount reads back.

`persist` packs a header and 64 records of 44 bytes into eight sectors; `vfs_init` probes the first
sector for the magic and unpacks them. Records straddle sector boundaries, fields do not know about
sectors. The round trip holds for every table and every generation (`decodeTable_encodeMeta`), hence
what a `persist()` that returned 0 left on the medium is what a mount without read errors loads
(`stored_of_persist`).
-/
import MinOS.Vfs.Calls
import MinOS.Vfs.Disk

namespace MinOS.Vfs

open MinOS.Ata
open Bytes (leByte leNat leNat_congr leNat_leByte)

/-! ## Records as bytes -/

theorem recordOfBytes_congr {raw raw' : Nat → UInt8} (h : ∀ j < 44, raw j = raw' j) :
    recordOfBytes raw = recordOfBytes raw' := by
  have hname : (fun j : Fin 32 => raw j) = fun j : Fin 32 => raw' j :=
    funext fun j => h j (by omega)
  simp only [recordOfBytes, hname, h 34 (by omega), h 35 (by omega),
    leNat_congr (w := 2) fun k hk => h (32 + k) (by omega),
    leNat_congr (w := 4) fun k hk => h (36 + k) (by omega),
    leNat_congr (w := 4) fun k hk => h (40 + k) (by omega)]

/-- **Round trip of one record.** -/
theorem recordOfBytes_recordByte (r : VfsRecord) : recordOfBytes (recordByte r) = r := by
  obtain ⟨name, parent, type, used, size, dataLba⟩ := r
  have hparent : leNat 2 (fun k => recordByte ⟨name, parent, type, used, size, dataLba⟩ (32 + k))
      = parent.toUInt16.toNat := by
    rw [leNat_congr (c := leByte parent.toUInt16.toNat) fun k hk => by
      simp [recordByte, show 32 + k < 34 by omega], leNat_leByte]
    exact Nat.mod_eq_of_lt parent.toUInt16.toNat_lt
  have hsize : leNat 4 (fun k => recordByte ⟨name, parent, type, used, size, dataLba⟩ (36 + k))
      = size.toNat := by
    rw [leNat_congr (c := leByte size.toNat) fun k hk => by
      simp [recordByte, show ¬ 36 + k < 32 by omega, show ¬ 36 + k < 34 by omega,
        show ¬ 36 + k = 34 by omega, show ¬ 36 + k = 35 by omega, show 36 + k < 40 by omega],
      leNat_leByte]
    exact Nat.mod_eq_of_lt size.toNat_lt
  have hlba : leNat 4 (fun k => recordByte ⟨name, parent, type, used, size, dataLba⟩ (40 + k))
      = dataLba.toNat := by
    rw [leNat_congr (c := leByte dataLba.toNat) fun k hk => by
      simp [recordByte, show ¬ 40 + k < 32 by omega, show ¬ 40 + k < 34 by omega,
        show ¬ 40 + k = 34 by omega, show ¬ 40 + k = 35 by omega, show ¬ 40 + k < 40 by omega],
      leNat_leByte]
    exact Nat.mod_eq_of_lt dataLba.toNat_lt
  simp only [recordOfBytes, hparent, hsize, hlba, UInt16.ofNat_toNat, UInt32.ofNat_toNat]
  congr 1
  funext j
  simp [recordByte]

/-- Byte `j` of record `i` in the metadata buffer -/
theorem byteAt_encodeMeta (g : UInt32) (t : Table) (i : Slot) {j : Nat} (hj : j < 44) :
    byteAt (encodeMeta g t) (8 + 44 * i + j) = recordByte (t i) j := by
  have hi := i.isLt
  have hdiv : (8 + 44 * i.val + j - 8) / 44 = i := by omega
  have hmod : (8 + 44 * i.val + j - 8) % 44 = j := by omega
  have hlt : (8 + 44 * i.val + j - 8) / 44 < 64 := by omega
  rw [byteAt, dif_pos (by omega)]
  simp only [encodeMeta]
  rw [if_neg (by omega), if_neg (by omega), dif_pos hlt, hmod]
  congr 2
  exact Fin.ext hdiv

/-- **Round trip of the table.** -/
theorem decodeTable_encodeMeta (g : UInt32) (t : Table) : decodeTable (encodeMeta g t) = t := by
  funext i
  rw [decodeTable, recordOfBytes_congr fun j hj => byteAt_encodeMeta g t i hj,
    recordOfBytes_recordByte]

theorem decodeGeneration_encodeMeta (g : UInt32) (t : Table) :
    decodeGeneration (encodeMeta g t) = g := by
  rw [decodeGeneration, leNat_congr (c := leByte g.toNat) fun k hk => by
    simp [byteAt, encodeMeta, show 4 + k < 4096 by omega, show ¬ 4 + k < 4 by omega,
      show 4 + k < 8 by omega], leNat_leByte, Nat.mod_eq_of_lt (by simpa using g.toNat_lt),
    UInt32.ofNat_toNat]

theorem hasMagic_encodeMeta (g : UInt32) (t : Table) :
    hasMagic (sectorOf (encodeMeta g t) 0) = true := by
  rw [hasMagic, leNat_congr (c := leByte vfsMagic) fun k hk => by
    simp [sectorOf, encodeMeta, show k < 512 by omega, show k < 4 by omega], leNat_leByte]
  decide

/-! ## What a mount without errors would load -/

/-- The same drive with other decisions ahead of it -/
def scripted (d : Drive) (reads : List Bool) (writes : List WriteOutcome) : Drive :=
  { d with readScript := reads, writeScript := writes }

/-- The same drive, from now on without errors -/
def calm (d : Drive) : Drive := scripted d [] []

theorem calm_eq {d : Drive} (hr : d.readScript = []) (hw : d.writeScript = []) : calm d = d := by
  obtain ⟨present, sectorCount, sectors, readScript, writeScript, trace⟩ := d
  cases hr
  cases hw
  rfl

/-- The generation and table on the medium, read the way `vfs_init` reads them -/
def stored (d : Drive) : Option (UInt32 × Table) := (loadTable (calm d)).1

/-- The eight sectors from `base` on -/
def blockAt (d : Drive) (base : UInt32) : Block := fun k =>
  d.sectors (lbaAdd base ⟨k / 512, div_lt_8 k⟩).toNat ⟨k % 512, mod_lt_512 k⟩

/-- The drive serves the eight sectors from `base` on. -/
def Serves (d : Drive) (base : UInt32) : Prop := ∀ i, ataTransferAccepts d (lbaAdd base i) = true

instance (d : Drive) (base : UInt32) : Decidable (Serves d base) :=
  inferInstanceAs (Decidable (∀ i, ataTransferAccepts d (lbaAdd base i) = true))

theorem Serves.congr {d e : Drive} {base : UInt32} (h : Serves d base) (hp : e.present = d.present)
    (hc : e.sectorCount = d.sectorCount) : Serves e base := fun i => by
  rw [ataTransferAccepts_congr hp hc]
  exact h i

theorem Serves.present {d : Drive} {base : UInt32} (h : Serves d base) : d.present = true := by
  have h0 := h 0
  simp only [ataTransferAccepts, Bool.and_eq_true] at h0
  exact h0.1.1.1

theorem blockAt_congr {d e : Drive} {base : UInt32}
    (h : ∀ i, e.sectors (lbaAdd base i).toNat = d.sectors (lbaAdd base i).toNat) :
    blockAt e base = blockAt d base := by
  funext k
  simp only [blockAt, h]

/-- A full read that returned 0 has the eight sectors. -/
theorem readSectors_eq_blockAt (base : UInt32) (b : Block) (d : Drive)
    (hok : (readSectors base (List.finRange 8) b d).1 = true) :
    (readSectors base (List.finRange 8) b d).2.1 = blockAt d base := by
  funext k
  rw [readSectors_block_of_ok base _ (List.nodup_finRange 8) b d hok k ⟨k / 512, by omega⟩ rfl,
    if_pos (List.mem_finRange _), blockAt]

/-- A full write that returned 0 has stored the buffer. -/
theorem blockAt_writeSectors {base : UInt32} {b : Block} {d : Drive}
    (hok : (writeSectors base b (List.finRange 8) d).1 = true) :
    blockAt (writeSectors base b (List.finRange 8) d).2 base = b := by
  funext k
  rw [blockAt, writeSectors_sectors_of_ok base b _ (List.nodup_finRange 8) d hok _
    (List.mem_finRange _), sectorOf]
  congr 1
  exact Fin.ext (Nat.div_add_mod k.val 512)

/-- How many of the eight sectors from `base` on the drive stores next, before it refuses one -/
def sectorsStored (d : Drive) (base : UInt32) : Nat :=
  sectorsTaken (fun i => ataTransferAccepts d (lbaAdd base i)) (List.finRange 8) d.writeScript

/-- A full write has stored that many sectors of the buffer. -/
theorem blockAt_writeSectors_apply (base : UInt32) (b : Block) (d : Drive) (k : Fin 4096) :
    blockAt (writeSectors base b (List.finRange 8) d).2 base k =
      if k.val < 512 * sectorsStored d base then b k else blockAt d base k := by
  have hmem : (⟨k / 512, div_lt_8 k⟩ : Fin 8) ∈ (List.finRange 8).take (sectorsStored d base) ↔
      k.val < 512 * sectorsStored d base := by
    rw [List.mem_take_iff_getElem]
    simp only [List.getElem_finRange, List.length_finRange, Fin.ext_iff]
    constructor
    · rintro ⟨i, hi, hik⟩
      dsimp only [Fin.val_cast] at hik
      omega
    · intro hk
      exact ⟨k / 512, by omega, rfl⟩
  rw [blockAt, writeSectors_sectors base b _ _ (List.nodup_finRange 8) d fun _ => rfl, ← sectorsStored]
  simp only [hmem]
  split
  · rw [sectorOf]
    congr 1
    exact Fin.ext (Nat.div_add_mod k.val 512)
  · rfl

/-- A drive that is not told to fail stores all eight, if it has them. -/
theorem Serves.sectorsStored_eq {base : UInt32} {d : Drive} (h : Serves d base) (hs : d.writeScript = []) :
    sectorsStored d base = 8 := by
  have hall : ∀ is : List (Fin 8), sectorsTaken (fun i => ataTransferAccepts d (lbaAdd base i)) is [] = is.length := by
    intro is
    induction is with
    | nil => rfl
    | cons i is ih =>
      rw [sectorsTaken, if_pos (h i)]
      exact congrArg (· + 1) ih
  rw [sectorsStored, hs, hall, List.length_finRange]

theorem Serves.of_writeSectors {base : UInt32} {b : Block} {d : Drive}
    (hok : (writeSectors base b (List.finRange 8) d).1 = true) : Serves d base :=
  fun i => ataTransferAccepts_of_writeSectors base b _ d hok i (List.mem_finRange i)

theorem Serves.writeSectors_ok {base : UInt32} {d : Drive} (h : Serves d base)
    (hs : d.writeScript = []) (b : Block) :
    (writeSectors base b (List.finRange 8) d).1 = true :=
  writeSectors_of_nil base b _ d hs fun i _ => h i

/-- The address of the first metadata sector -/
theorem lbaAdd_zero (base : UInt32) : lbaAdd base 0 = base := by
  simp [lbaAdd]

/-- **The probe and the load**, when the metadata sectors are in range: the stored table is loaded
exactly if the magic is there and none of the nine reads times out. -/
theorem loadTable_eq {d : Drive} (h : Serves d vfsMetaLba) :
    (loadTable d).1 =
      if hasMagic (d.sectors vfsMetaLba.toNat) ∧ (d.readScript.take 9).all (! ·) = true then
        some (decodeGeneration (blockAt d vfsMetaLba), decodeTable (blockAt d vfsMetaLba))
      else none := by
  have hacc : ataTransferAccepts d vfsMetaLba = true := by simpa [lbaAdd_zero] using h 0
  have hsome := ataRead28_isSome d vfsMetaLba
  have hread := ataRead28_eq_some d vfsMetaLba
  have hscript := ataRead28_readScript d vfsMetaLba hacc
  have hp := ataRead28_present d vfsMetaLba
  have hc := ataRead28_sectorCount d vfsMetaLba
  have hsec := ataRead28_sectors d vfsMetaLba
  -- The probe is the first of the nine reads.
  have htake : (d.readScript.take 9).all (! ·)
      = (!d.readScript.headD false && (d.readScript.tail.take 8).all (! ·)) := by
    cases d.readScript <;> simp
  rw [loadTable, htake]
  cases heq : ataRead28 d vfsMetaLba with
  | mk r d' =>
    rw [heq] at hsome hread hscript hp hc hsec
    dsimp only at hsome hread hscript hp hc hsec
    rw [hacc, Bool.true_and] at hsome
    rw [← hsome]
    cases r with
    | none => simp
    | some sec =>
      obtain rfl := hread sec rfl
      have hok := readSectors_ok vfsMetaLba (List.finRange 8) (fun _ => 0) d'
        fun i _ => h.congr hp hc i
      rw [hscript, List.length_finRange] at hok
      have hblock := readSectors_eq_blockAt vfsMetaLba (fun _ => 0) d'
      have hsame : blockAt d' vfsMetaLba = blockAt d vfsMetaLba :=
        blockAt_congr fun i => by rw [hsec]
      rw [hsame] at hblock
      dsimp only
      cases hm : hasMagic (d.sectors vfsMetaLba.toNat) with
      | false => simp
      | true =>
        rw [if_pos rfl, ← hok]
        cases hr : readSectors vfsMetaLba (List.finRange 8) (fun _ => 0) d' with
        | mk ok rest =>
          obtain ⟨all, d''⟩ := rest
          rw [hr] at hblock
          cases ok with
          | false => simp
          | true =>
            obtain rfl := hblock rfl
            simp

/-- Out of range, nothing is loaded. -/
theorem loadTable_of_not_serves {d : Drive} (h : ¬ Serves d vfsMetaLba) : (loadTable d).1 = none := by
  rw [loadTable]
  have hp := ataRead28_present d vfsMetaLba
  have hc := ataRead28_sectorCount d vfsMetaLba
  cases heq : ataRead28 d vfsMetaLba with
  | mk r d' =>
    rw [heq] at hp hc
    cases r with
    | none => rfl
    | some sec =>
      dsimp only at hp hc ⊢
      split
      · cases hr : readSectors vfsMetaLba (List.finRange 8) (fun _ => 0) d' with
        | mk ok rest =>
          obtain ⟨all, d''⟩ := rest
          cases ok with
          | false => rfl
          | true =>
            -- eight reads that succeeded were all in range
            exact absurd (fun i => by
              rw [← ataTransferAccepts_congr hp hc]
              exact ataTransferAccepts_of_readSectors vfsMetaLba _ _ d' (by rw [hr]) i
                (List.mem_finRange i)) h
      · rfl

/-- **What is stored**: a table, exactly if the metadata sectors are in range and the first has the
magic. -/
theorem stored_eq (d : Drive) : stored d =
    if Serves d vfsMetaLba ∧ hasMagic (d.sectors vfsMetaLba.toNat) = true then
      some (decodeGeneration (blockAt d vfsMetaLba), decodeTable (blockAt d vfsMetaLba))
    else none := by
  by_cases h : Serves d vfsMetaLba
  · rw [stored, loadTable_eq (h.congr (e := calm d) rfl rfl)]
    have hblock : blockAt (calm d) vfsMetaLba = blockAt d vfsMetaLba := blockAt_congr fun _ => rfl
    rw [hblock]
    simp [calm, scripted, h]
  · rw [stored, loadTable_of_not_serves (d := calm d) fun hc => h (hc.congr (e := d) rfl rfl), if_neg]
    exact fun hc => h hc.1

theorem Serves.of_stored {d : Drive} {x : UInt32 × Table} (h : stored d = some x) :
    Serves d vfsMetaLba := by
  rw [stored_eq] at h
  split at h
  · rename_i hc
    exact hc.1
  · cases h

/-- What is stored depends on the statics of the driver and the eight sectors only. -/
theorem stored_congr {d e : Drive} (hp : e.present = d.present) (hc : e.sectorCount = d.sectorCount)
    (hs : ∀ i, e.sectors (lbaAdd vfsMetaLba i).toNat = d.sectors (lbaAdd vfsMetaLba i).toNat) :
    stored e = stored d := by
  have hserves : Serves e vfsMetaLba ↔ Serves d vfsMetaLba :=
    ⟨fun h => h.congr hp.symm hc.symm, fun h => h.congr hp hc⟩
  have h0 : e.sectors vfsMetaLba.toNat = d.sectors vfsMetaLba.toNat := by
    simpa only [lbaAdd_zero] using hs 0
  simp only [stored_eq, hserves, h0, blockAt_congr hs]

@[simp] theorem stored_scripted (d : Drive) (reads : List Bool) (writes : List WriteOutcome) :
    stored (scripted d reads writes) = stored d :=
  stored_congr rfl rfl fun _ => rfl

/-- A mount loads what is stored, or nothing. -/
theorem stored_of_loadTable {d : Drive} {x : UInt32 × Table} (h : (loadTable d).1 = some x) :
    stored d = some x := by
  by_cases hserves : Serves d vfsMetaLba
  · rw [loadTable_eq hserves] at h
    split at h
    · rename_i hc
      rw [stored_eq, if_pos ⟨hserves, hc.1⟩, h]
    · cases h
  · rw [loadTable_of_not_serves hserves] at h
    cases h

/-- A mount that finds a table loads it, unless one of the nine reads times out. -/
theorem loadTable_of_stored {d : Drive} {x : UInt32 × Table} (h : stored d = some x) :
    (loadTable d).1 = if (d.readScript.take 9).all (! ·) = true then some x else none := by
  have hserves := Serves.of_stored h
  rw [stored_eq] at h
  split at h
  · rename_i hc
    rw [loadTable_eq hserves, h]
    simp [hc.2]
  · cases h

/-- Probing and loading only read. -/
theorem loadTable_frame (d : Drive) :
    (loadTable d).2.present = d.present ∧ (loadTable d).2.sectorCount = d.sectorCount ∧
    (loadTable d).2.sectors = d.sectors ∧ (loadTable d).2.writeScript = d.writeScript := by
  have hp := ataRead28_present d vfsMetaLba
  have hc := ataRead28_sectorCount d vfsMetaLba
  have hs := ataRead28_sectors d vfsMetaLba
  have hw := ataRead28_writeScript d vfsMetaLba
  rw [loadTable]
  cases heq : ataRead28 d vfsMetaLba with
  | mk r d' =>
    rw [heq] at hp hc hs hw
    cases r with
    | none => exact ⟨hp, hc, hs, hw⟩
    | some sec =>
      dsimp only at hp hc hs hw ⊢
      obtain ⟨ip, ic, isec, iw⟩ := readSectors_frame vfsMetaLba (List.finRange 8) (fun _ => 0) d'
      split
      · cases hr : readSectors vfsMetaLba (List.finRange 8) (fun _ => 0) d' with
        | mk ok rest =>
          rw [hr] at ip ic isec iw
          cases ok <;> exact ⟨ip.trans hp, ic.trans hc, isec.trans hs, iw.trans hw⟩
      · exact ⟨hp, hc, hs, hw⟩

theorem loadTable_readScript_of_nil {d : Drive} (hs : d.readScript = []) :
    (loadTable d).2.readScript = [] := by
  have h := ataRead28_readScript_of_nil d vfsMetaLba hs
  rw [loadTable]
  cases heq : ataRead28 d vfsMetaLba with
  | mk r d' =>
    rw [heq] at h
    cases r with
    | none => exact h
    | some sec =>
      dsimp only at h ⊢
      have hall := readSectors_readScript_of_nil vfsMetaLba (List.finRange 8) (fun _ => 0) d' h
      split
      · cases hr : readSectors vfsMetaLba (List.finRange 8) (fun _ => 0) d' with
        | mk ok rest =>
          rw [hr] at hall
          cases ok <;> exact hall
      · exact h

theorem loadTable_trace (d : Drive) : ∃ tr, (loadTable d).2.trace = d.trace ++ tr ∧
    ∀ x ∈ tr, ∃ lba ok, x = .read lba ok := by
  have ht := ataRead28_trace d vfsMetaLba
  have hprobe : ∀ ok, ∀ x ∈ [Transfer.read vfsMetaLba ok], ∃ lba ok, x = .read lba ok := by
    intro ok x hx
    exact ⟨_, _, List.mem_singleton.mp hx⟩
  rw [loadTable]
  cases heq : ataRead28 d vfsMetaLba with
  | mk r d' =>
    rw [heq] at ht
    cases r with
    | none => exact ⟨_, ht, hprobe _⟩
    | some sec =>
      dsimp only at ht ⊢
      obtain ⟨tr, htr, hmem, -⟩ := readSectors_trace vfsMetaLba (List.finRange 8) (fun _ => 0) d'
      split
      · refine ⟨[.read vfsMetaLba true] ++ tr, ?_, ?_⟩
        · have hall : (readSectors vfsMetaLba (List.finRange 8) (fun _ => 0) d').2.2.trace
              = d.trace ++ ([.read vfsMetaLba true] ++ tr) := by
            rw [htr, ht, List.append_assoc]
            rfl
          cases hr : readSectors vfsMetaLba (List.finRange 8) (fun _ => 0) d' with
          | mk ok rest =>
            rw [hr] at hall
            cases ok <;> exact hall
        · intro x hx
          rcases List.mem_append.mp hx with hx | hx
          · exact hprobe _ x hx
          · obtain ⟨i, -, ok, rfl⟩ := hmem x hx
            exact ⟨_, _, rfl⟩
      · exact ⟨_, ht, hprobe _⟩

/-! ## What a flush stores -/

theorem rc_eq_zero_iff {ok : Bool} : rc ok = 0 ↔ ok = true := by
  cases ok <;> simp [rc]

section Persist

variable (s : State)

theorem persist_fst_eq_zero_iff : (persist s).1 = 0 ↔ (persist s).2.flushed = true := by
  unfold persist
  split
  · exact rc_eq_zero_iff
  · simp

@[simp] theorem persist_present : (persist s).2.drive.present = s.drive.present := by
  unfold persist; split <;> simp

@[simp] theorem persist_sectorCount : (persist s).2.drive.sectorCount = s.drive.sectorCount := by
  unfold persist; split <;> simp

@[simp] theorem persist_readScript : (persist s).2.drive.readScript = s.drive.readScript := by
  unfold persist; split <;> simp

theorem persist_writeScript_of_nil (hs : s.drive.writeScript = []) :
    (persist s).2.drive.writeScript = [] := by
  unfold persist
  split
  · exact writeSectors_writeScript_of_nil _ _ _ _ hs
  · exact hs

/-- A flush touches the eight metadata sectors only. -/
theorem persist_sectors_of_ne {n : Nat} (hn : ∀ i, n ≠ (lbaAdd vfsMetaLba i).toNat) :
    (persist s).2.drive.sectors n = s.drive.sectors n := by
  unfold persist
  split
  · exact writeSectors_sectors_of_ne _ _ _ (fun i _ => hn i) _
  · rfl

variable {s}

theorem persist_generation (hd : s.diskBacked = true) :
    (persist s).2.generation = s.generation + 1 := by
  unfold persist
  rw [if_pos hd]

/-- **A flush that returned 0 stores the table.** -/
theorem stored_of_persist (hd : s.diskBacked = true) (hok : (persist s).1 = 0) :
    stored (persist s).2.drive = some (s.generation + 1, s.records) := by
  unfold persist at hok ⊢
  rw [if_pos hd] at hok ⊢
  have hok' := rc_eq_zero_iff.mp hok
  have hserves := Serves.of_writeSectors hok'
  have hblock := blockAt_writeSectors hok'
  have hfirst := writeSectors_sectors_of_ok vfsMetaLba _ _ (List.nodup_finRange 8) _ hok' 0
    (List.mem_finRange _)
  rw [lbaAdd_zero] at hfirst
  rw [stored_eq, if_pos]
  · show some (decodeGeneration (blockAt _ _), decodeTable (blockAt _ _)) = _
    rw [hblock, decodeGeneration_encodeMeta, decodeTable_encodeMeta]
  · refine ⟨hserves.congr ?_ ?_, ?_⟩
    · exact writeSectors_present _ _ _ _
    · exact writeSectors_sectorCount _ _ _ _
    · show hasMagic ((writeSectors _ _ _ _).2.sectors _) = true
      rw [hfirst]
      exact hasMagic_encodeMeta _ _

/-- On a working drive whose metadata sectors are in range a flush returns 0. -/
theorem persist_of_calm (hs : s.drive.writeScript = [])
    (hserves : s.diskBacked = true → Serves s.drive vfsMetaLba) : (persist s).1 = 0 := by
  unfold persist
  split
  · rename_i hd
    exact rc_eq_zero_iff.mpr ((hserves hd).writeSectors_ok hs _)
  · rfl

end Persist

/-! ## What a refresh reads -/

theorem refresh_frame (s : State) (n : Slot) :
    (refresh s n).2.drive.present = s.drive.present ∧
    (refresh s n).2.drive.sectorCount = s.drive.sectorCount ∧
    (refresh s n).2.drive.sectors = s.drive.sectors ∧
    (refresh s n).2.drive.writeScript = s.drive.writeScript := by
  unfold refresh
  split
  · exact readSectors_frame _ _ _ _
  · exact ⟨rfl, rfl, rfl, rfl⟩

/-- On a working drive the read loop succeeds exactly if all its addresses are in range. -/
theorem readSectors_eq_true_iff {base : UInt32} {b : Block} {d : Drive} (hs : d.readScript = []) :
    (readSectors base (List.finRange 8) b d).1 = true ↔ Serves d base := by
  constructor
  · intro h i
    exact ataTransferAccepts_of_readSectors base _ b d h i (List.mem_finRange i)
  · intro h
    rw [readSectors_ok base _ b d fun i _ => h i, hs]
    rfl

theorem refresh_fst_iff {s : State} {n : Slot} (hd : s.diskBacked = true)
    (hs : s.drive.readScript = []) :
    (refresh s n).1 = true ↔ Serves s.drive (s.records n).dataLba := by
  unfold refresh
  rw [if_pos hd]
  exact readSectors_eq_true_iff hs

/-- After a refresh that returned 0 the row is the file's eight sectors. -/
theorem refresh_contents {s : State} {n : Slot} (hd : s.diskBacked = true)
    (hok : (refresh s n).1 = true) :
    (refresh s n).2.contents n = blockAt s.drive (s.records n).dataLba := by
  unfold refresh at hok ⊢
  rw [if_pos hd] at hok ⊢
  show Function.update _ n _ n = _
  rw [Function.update_self]
  exact readSectors_eq_blockAt _ _ _ hok

theorem refresh_readScript_of_nil {s : State} (n : Slot) (hs : s.drive.readScript = []) :
    (refresh s n).2.drive.readScript = [] := by
  unfold refresh
  split
  · exact readSectors_readScript_of_nil _ _ _ _ hs
  · exact hs

end MinOS.Vfs
