/-
# MinOS.Vfs.Reach — whole runs: boots, calls and reboots.

A run boots on some drive, makes calls, and may reboot: memory is cleared, the drive keeps its medium
and its future. The state invariant (`Inv`) says that the table in memory is well formed, and that the
table on the medium is, whenever the last flush returned 0. Both halves are needed: the second is what
a reboot starts from. It is kept by the four micro-steps (`Micro.inv`), so by every call, so by every
run (`Reachable.inv`).

Two results about every reachable state follow: the tree is well formed (`tree_wellFormed`), and
`find` is exact (`find_exact`).
-/
import MinOS.Vfs.Codec

namespace MinOS.Vfs

open MinOS.Ata NameTree Machine
open Bytes (chars Terminated)

/-! ## Booting -/

/-- What `vfs_init` has in memory before it flushes -/
def bootState (d : Drive) : State :=
  let loaded := if ataPrimaryMasterPresent d then loadTable d else (none, d)
  { State.boot loaded.2 with
    records := (loaded.1.map Prod.snd).getD initTable
    generation := (loaded.1.map Prod.fst).getD 0
    diskBacked := ataPrimaryMasterPresent d }

theorem mount_eq (d : Drive) : mount d = persist (bootState d) := by
  simp only [mount, vfsInit, bootState]
  rw [show (State.boot d).drive = d from rfl]
  cases (if ataPrimaryMasterPresent d = true then loadTable d else (none, d)) with
  | mk loaded d' =>
    cases loaded <;> rfl

section Boot

variable (d : Drive)

@[simp] theorem bootState_diskBacked : (bootState d).diskBacked = d.present := rfl

@[simp] theorem bootState_contents : (bootState d).contents = fun _ _ => 0 := rfl

/-- `vfs_init` has only read so far. -/
theorem bootState_frame :
    (bootState d).drive.present = d.present ∧ (bootState d).drive.sectorCount = d.sectorCount ∧
    (bootState d).drive.sectors = d.sectors ∧ (bootState d).drive.writeScript = d.writeScript := by
  simp only [bootState, State.boot]
  split
  · exact loadTable_frame d
  · exact ⟨rfl, rfl, rfl, rfl⟩

variable {d}

theorem bootState_readScript_of_nil (hs : d.readScript = []) :
    (bootState d).drive.readScript = [] := by
  simp only [bootState, State.boot]
  split
  · exact loadTable_readScript_of_nil hs
  · exact hs

theorem bootState_of_load {g : UInt32} {t : Table} (hp : d.present = true)
    (h : (loadTable d).1 = some (g, t)) :
    (bootState d).records = t ∧ (bootState d).generation = g := by
  simp [bootState, ataPrimaryMasterPresent, hp, h]

theorem bootState_of_fresh (h : d.present = true → (loadTable d).1 = none) :
    (bootState d).records = initTable ∧ (bootState d).generation = 0 := by
  cases hp : d.present with
  | false => simp [bootState, ataPrimaryMasterPresent, hp]
  | true => simp [bootState, ataPrimaryMasterPresent, hp, h hp]

end Boot

/-! ## Runs -/

/-- The states of a run that boots on `d`, makes calls where `mayCall` allows them and reboots where
`mayReboot` does -/
inductive Run (mayCall : State → Op → Prop) (mayReboot : State → Prop) (d : Drive) : State → Prop
  | boot : Run mayCall mayReboot d (mount d).2
  | call {s s' : State} {op : Op} {r : Reply} (h : Run mayCall mayReboot d s) (hc : mayCall s op)
      (hstep : step s op = .ok (r, s')) : Run mayCall mayReboot d s'
  | reboot {s : State} (h : Run mayCall mayReboot d s) (hr : mayReboot s) :
      Run mayCall mayReboot d (mount s.drive).2

theorem Run.mono {mayCall mayCall' : State → Op → Prop} {mayReboot : State → Prop} {d : Drive} {s : State}
    (h : Run mayCall mayReboot d s) (hcall : ∀ s op, mayCall s op → mayCall' s op) :
    Run mayCall' mayReboot d s := by
  induction h with
  | boot => exact .boot
  | call _ hc hstep ih => exact ih.call (hcall _ _ hc) hstep
  | reboot _ hr ih => exact ih.reboot hr

/-- Runs of arbitrary calls whose reboots follow a `persist()` that returned 0 -/
abbrev Reachable (d : Drive) : State → Prop := Run (fun _ _ => True) (fun s => s.flushed = true) d

/-- `vfs_init` comes up with the empty table: there is no drive, or no table on it. -/
def Fresh (d : Drive) : Prop := d.present = true → (loadTable d).1 = none

theorem fresh_of_no_magic {d : Drive} (h : hasMagic (d.sectors vfsMetaLba.toNat) = false) :
    Fresh d := by
  intro _
  cases hl : (loadTable d).1 with
  | none => rfl
  | some x =>
    have := stored_of_loadTable hl
    rw [stored_eq, if_neg (by simp [h])] at this
    cases this

/-! ## The state invariant -/

/-- **The state invariant.** -/
structure Inv (s : State) : Prop where
  wf : Wf s.records
  backed : s.diskBacked = s.drive.present
  stored : s.diskBacked = true → s.flushed = true →
    ∃ g t, Vfs.stored s.drive = some (g, t) ∧ Wf t

/-- A flush of a well-formed table establishes the invariant, whatever the drive does. -/
theorem inv_persist {s : State} (hwf : Wf s.records) (hb : s.diskBacked = s.drive.present) :
    Inv (persist s).2 := by
  refine ⟨by simpa using hwf, by simpa using hb, fun hd hf => ?_⟩
  rw [persist_diskBacked] at hd
  exact ⟨_, _, stored_of_persist hd ((persist_fst_eq_zero_iff s).mpr hf), hwf⟩

theorem inv_mount {d : Drive} (h : ∀ g t, d.present = true → (loadTable d).1 = some (g, t) → Wf t) :
    Inv (mount d).2 := by
  rw [mount_eq]
  apply inv_persist
  · by_cases hp : d.present = true
    · cases hl : (loadTable d).1 with
      | none =>
        rw [(bootState_of_fresh fun _ => hl).1]
        exact wf_initTable
      | some x =>
        rw [(bootState_of_load hp hl).1]
        exact h _ _ hp hl
    · rw [(bootState_of_fresh fun hc => absurd hc hp).1]
      exact wf_initTable
  · rw [(bootState_frame d).1, bootState_diskBacked]

/-- The medium after the 8 data sectors of a slot were written still stores the same table. -/
theorem stored_writeSectors_slot (n : Slot) (b : Block) (d : Drive) :
    stored (writeSectors (slotLba n) b (List.finRange 8) d).2 = stored d := by
  apply stored_congr
  · exact writeSectors_present _ _ _ _
  · exact writeSectors_sectorCount _ _ _ _
  · intro i
    exact writeSectors_sectors_of_ne _ _ _ (fun j _ => meta_ne_slot n i j) d

theorem inv_refresh {s : State} (h : Inv s) (n : Slot) : Inv (refresh s n).2 := by
  obtain ⟨hp, hc, hs, -⟩ := refresh_frame s n
  refine ⟨by simpa using h.wf, by rw [hp, refresh_diskBacked]; exact h.backed, fun hd hf => ?_⟩
  rw [refresh_diskBacked] at hd
  rw [refresh_flushed] at hf
  rw [stored_congr hp hc fun i => by rw [hs]]
  exact h.stored hd hf

/-- A write keeps the invariant, at whichever of its sixteen sectors it stops. -/
theorem inv_writeAt {s : State} (h : Inv s) {n : Slot} {pos : Nat} (d : List UInt8)
    (hw : Writable s.records n) (hpos : pos ≤ vfsContentMax) : Inv (writeAt s n pos d).2 := by
  have hn := h.wf.ne_root_of_writable hw
  have hwf : Wf (written s n pos d).records := hw.wf h.wf (writtenSize_le hpos d)
  rw [writeAt_eq]
  split
  · rename_i hd
    rw [h.wf.lba n hn hw.used]
    have hp := writeSectors_present (slotLba n) ((written s n pos d).contents n) (List.finRange 8)
      s.drive
    have hst := stored_writeSectors_slot n ((written s n pos d).contents n) s.drive
    split
    · rename_i drive heq
      rw [heq] at hp
      exact inv_persist hwf (h.backed.trans hp.symm)
    · -- the data sectors failed: no flush, and the old table is still on the medium
      rename_i drive heq
      rw [heq] at hp hst
      refine ⟨hwf, h.backed.trans hp.symm, fun _ hf => ?_⟩
      show ∃ g t, Vfs.stored drive = some (g, t) ∧ Wf t
      rw [hst]
      exact h.stored hd hf
  · exact inv_persist hwf h.backed

theorem Micro.inv {c : Scope} {s s' : State} (hstep : Micro c s s') (h : Inv s) : Inv s' := by
  cases hstep with
  | create type hc => exact inv_persist (hc.wf h.wf type) h.backed
  | clear hc => exact inv_persist (hc.wf h.wf) h.backed
  | refresh hw => exact inv_refresh h _
  | write d hw hpos => exact inv_writeAt h d hw hpos

theorem Micros.inv {c : Scope} {s s' : State} (hsteps : Micros c s s') (h : Inv s) : Inv s' := by
  induction hsteps with
  | refl => exact h
  | tail _ hstep ih => exact hstep.inv ih

/-- A call that returns has made micro-steps within its scope. -/
theorem Inv.micros {s s' : State} {op : Op} {r : Reply} (h : Inv s)
    (hstep : step s op = .ok (r, s')) : Micros (op.scope s.records) s s' := by
  obtain ⟨r₁, s₁, h₁, hm⟩ := h.wf.step_micros op
  rw [hstep] at h₁
  cases h₁
  exact hm

theorem Inv.mount {s : State} (h : Inv s) (hf : s.flushed = true) : Inv (mount s.drive).2 := by
  apply inv_mount
  intro g t hp hl
  obtain ⟨g', t', hst, hwf⟩ := h.stored (h.backed.trans hp) hf
  rw [stored_of_loadTable hl] at hst
  cases hst
  exact hwf

theorem Fresh.inv_mount {d : Drive} (hd : Fresh d) : Inv (Vfs.mount d).2 := by
  apply Vfs.inv_mount
  intro g t hp hl
  rw [hd hp] at hl
  cases hl

/-- **The invariant of whole runs.** -/
theorem Reachable.inv {d : Drive} (hd : Fresh d) {s : State} (h : Reachable d s) : Inv s := by
  induction h with
  | boot => exact hd.inv_mount
  | call _ _ hstep ih => exact (ih.micros hstep).inv ih
  | reboot _ hr ih => exact ih.mount hr

/-- **No call of a run leaves the arrays.** -/
theorem Reachable.step_ok {d : Drive} (hd : Fresh d) {s : State} (h : Reachable d s) (op : Op) :
    ∃ r s', step s op = .ok (r, s') ∧ Reachable d s' := by
  obtain ⟨r, s', hstep, -⟩ := (h.inv hd).wf.step_micros op
  exact ⟨r, s', hstep, h.call trivial hstep⟩

/-! ## Every reachable tree -/

/-- A well-formed tree, clause by clause, in terms of the stored fields -/
structure TreeWellFormed (t : Table) : Prop where
  root : (t 0).used ≠ 0 ∧ (t 0).type = VfsType.directory.code ∧ (t 0).parent = -1
  parent : ∀ i, i ≠ 0 → (t i).used ≠ 0 → ∃ j : Slot, (t i).parent.toInt = j ∧
    (t j).used ≠ 0 ∧ (t j).type = VfsType.directory.code
  name : ∀ i, i ≠ 0 → (t i).used ≠ 0 → Terminated (t i).name ∧
    1 ≤ (chars (t i).name).length ∧ (chars (t i).name).length ≤ 31 ∧ slash ∉ chars (t i).name ∧
    chars (t i).name ≠ [dot] ∧ chars (t i).name ≠ [dot, dot]
  type : ∀ i, (t i).used ≠ 0 →
    (t i).type = VfsType.directory.code ∨ (t i).type = VfsType.file.code
  size : ∀ i, (t i).used ≠ 0 → (t i).size.toNat ≤ 4096
  /-- Following parent links ends at record 0. -/
  reaches : ∀ i, (t i).used ≠ 0 → ∃ k ≤ 16, (fun j => parentSlot (t j))^[k] i = 0
  unique : ∀ i j, (t i).used ≠ 0 → (t j).used ≠ 0 → (t i).parent = (t j).parent →
    chars (t i).name = chars (t j).name → i = j
  fullPath : ∀ i, (t i).used ≠ 0 → ∃ p, (links t).Path i p ∧ (joinParts p).length ≤ vfsPathMax

/-- As many parent links as the path has components lead to the root. -/
theorem iterate_parentSlot_of_path {t : Table} {i : Slot} {p : List (List UInt8)}
    (h : (links t).Path i p) : (fun j => parentSlot (t j))^[p.length] i = 0 := by
  induction h with
  | root => rfl
  | @step i p _ _ _ ih =>
    rw [List.length_append, List.length_singleton, Function.iterate_succ_apply]
    exact ih

theorem Wf.sibling_unique {t : Table} (h : Wf t) {i j : Slot} (hi : (t i).used ≠ 0)
    (hj : (t j).used ≠ 0) (hp : (t i).parent = (t j).parent)
    (hn : chars (t i).name = chars (t j).name) : i = j := by
  -- the root is the only used record with a negative parent
  have hroot : ∀ k, k ≠ 0 → (t k).used ≠ 0 → (t k).parent ≠ (t 0).parent := by
    intro k hk hu he
    have hk' := h.toInt_parent hk hu
    rw [he, h.root_parent] at hk'
    have : ((-1 : Int16)).toInt = -1 := rfl
    omega
  by_cases hi0 : i = 0
  · by_cases hj0 : j = 0
    · rw [hi0, hj0]
    · exact absurd (hi0 ▸ hp.symm) (hroot j hj0 hj)
  · by_cases hj0 : j = 0
    · exact absurd (hj0 ▸ hp) (hroot i hi0 hi)
    · refine h.distinct (parentSlot (t j)) _ i j ⟨hi, hi0, ?_, hn⟩ ⟨hj, hj0, rfl, rfl⟩
      show parentSlot (t i) = parentSlot (t j)
      rw [parentSlot, hp, parentSlot]

theorem Wf.treeWellFormed {t : Table} (h : Wf t) : TreeWellFormed t := by
  refine ⟨⟨h.root_used, h.root_type, h.root_parent⟩, h.parent, ?_, h.type, h.size, ?_,
    fun i j => h.sibling_unique, ?_⟩
  · intro i hi hu
    obtain ⟨hterm, hgood⟩ := h.name i hi hu
    exact ⟨hterm, List.length_pos_iff.mpr hgood.ne_nil, hgood.length_le, hgood.slash_notMem,
      hgood.ne_dot, hgood.ne_dotdot⟩
  · intro i hu
    obtain ⟨p, hp, hc⟩ := h.path i hu
    exact ⟨p.length, hc.depth_le, iterate_parentSlot_of_path hp⟩
  · intro i hu
    obtain ⟨p, hp, hc⟩ := h.path i hu
    exact ⟨p, hp, hc.length_le⟩

/-- **Tree well-formedness is an invariant of every run**, whatever the drive does. -/
theorem tree_wellFormed {d : Drive} (hd : Fresh d) {s : State} (hs : Reachable d s) :
    TreeWellFormed s.records :=
  (hs.inv hd).wf.treeWellFormed

/-- **Lookup is exact in every reachable state.** `find` never faults; with `c` the components of what
`vfs_normalize` makes of the path (`none`: it fails), it returns the slot the component-wise resolver
ends at, and -1 exactly if there are no components or the walk gets stuck. No walk is ambiguous. -/
theorem find_exact {d : Drive} (hd : Fresh d) {s : State} (hs : Reachable d s) (p : PathArg) :
    (∃ c : Option (List (List UInt8)),
      (∀ q, c = some q → ∀ x ∈ q, GoodName x) ∧
      vfsNormalizeRoot p.chars = .ok (c.map joinParts) ∧
      find s.records p.chars = .ok (c.bind (resolve s.records))) ∧
    ∀ i j : Slot, (s.records i).used ≠ 0 → (s.records j).used ≠ 0 →
      (s.records i).parent = (s.records j).parent →
      chars (s.records i).name = chars (s.records j).name → i = j := by
  have hwf := (hs.inv hd).wf
  refine ⟨⟨canon p.chars, ?_, normalizeRoot_eq p, hwf.find_eq p⟩, fun i j => hwf.sibling_unique⟩
  intro q hq
  exact (canonical_of_canon hq).good

/-! ## Creating -/

section Creating

variable {s : State} (h : Wf s.records) {p : PathArg} {j k : Slot} {x : List UInt8}
  (ht : createTarget s.records p.chars = some (j, k, x))
include h ht

/-- A directory that can be created is … -/
theorem Wf.exists_mkdir : ∃ r s', step s (.mkdir p) = .ok (.code r, s') ∧
    s'.records = Function.update s.records k (newRecord .directory j k x) ∧ (s'.flushed = true → r = 0) := by
  refine ⟨_, _, ?_, ?_, (persist_fst_eq_zero_iff (s.setRecord k (newRecord .directory j k x))).mpr⟩
  · rw [step, vfsMkdir, h.create_eq, ht]
    rfl
  · rw [persist_records, setRecord_records]

/-- … and so is a file. -/
theorem Wf.exists_touch : ∃ r s', step s (.touch p) = .ok (.code r, s') ∧
    s'.records = Function.update s.records k (newRecord .file j k x) ∧ (s'.flushed = true → r = 0) := by
  obtain ⟨q, hp, hc⟩ := creatable_of_createTarget ht
  have hnone : lookup s.records p.chars = none := by
    rw [lookup, hp, Option.bind_some, hc.absent]
  refine ⟨_, _, ?_, ?_, (persist_fst_eq_zero_iff (s.setRecord k (newRecord .file j k x))).mpr⟩
  · rw [step, h.touch_eq, hnone, if_neg (by simp), h.create_eq, ht]
    rfl
  · rw [persist_records, setRecord_records]

end Creating

/-! ## Concrete drives -/

/-- No drive on the primary channel -/
def noDrive : Drive where
  present := false
  sectorCount := 0
  sectors := fun _ _ => 0
  readScript := []
  writeScript := []
  trace := []

/-- A working drive of `count` zeroed sectors -/
def blankDisk (count : UInt32) : Drive :=
  { noDrive with present := true, sectorCount := count }

theorem fresh_blankDisk (count : UInt32) : Fresh (blankDisk count) :=
  fresh_of_no_magic (show hasMagic (fun _ => 0) = false by decide)

/-- The path `/a` -/
def pathA : PathArg := ⟨[slash, 97], by decide, by decide⟩

/-- The parent, slot and name a create of `/a` arrives at on an empty filesystem -/
theorem createTarget_pathA {d : Drive} (hd : Fresh d) :
    createTarget (mount d).2.records pathA.chars = some (0, 1, [97]) := by
  rw [mount_eq, persist_records, (bootState_of_fresh hd).1]
  decide

theorem tree_wellFormed_mkdir : ∃ r s',
    step (mount (blankDisk 65536)).2 (.mkdir pathA) = .ok (r, s') ∧ TreeWellFormed s'.records := by
  have hd := fresh_blankDisk 65536
  obtain ⟨r, s', hstep, hs'⟩ := Reachable.step_ok hd .boot (.mkdir pathA)
  exact ⟨r, s', hstep, tree_wellFormed hd hs'⟩

/-- The path `/a/b` -/
def pathAB : PathArg := ⟨[slash, 97, slash, 98], by decide, by decide⟩

/-- A directory `/a` … -/
def dirTable : Table := Function.update initTable 1 (newRecord .directory 0 1 [97])

/-- … and a file `/a/b` -/
def nestedTable : Table := Function.update dirTable 2 (newRecord .file 1 2 [98])

theorem createTarget_pathAB : createTarget dirTable pathAB.chars = some (1, 2, [98]) := by decide

theorem fileAt_pathAB : fileAt nestedTable pathAB.chars = some 2 := by decide

/-- A `mkdir` and a `touch` get there from an empty filesystem, and return 0 if their flushes do. -/
theorem exists_nested {d : Drive} (hd : Fresh d) : ∃ r₁ s₁ r₂ s₂,
    step (mount d).2 (.mkdir pathA) = .ok (.code r₁, s₁) ∧ (s₁.flushed = true → r₁ = 0) ∧
    step s₁ (.touch pathAB) = .ok (.code r₂, s₂) ∧ (s₂.flushed = true → r₂ = 0) ∧
    s₂.records = nestedTable := by
  have hrec : (mount d).2.records = initTable := by
    rw [mount_eq, persist_records, (bootState_of_fresh hd).1]
  obtain ⟨r₁, s₁, hmkdir, hrec₁, hzero₁⟩ := hd.inv_mount.wf.exists_mkdir (createTarget_pathA hd)
  rw [hrec] at hrec₁
  have ht : createTarget s₁.records pathAB.chars = some (1, 2, [98]) := by
    rw [hrec₁]
    exact createTarget_pathAB
  obtain ⟨r₂, s₂, htouch, hrec₂, hzero₂⟩ := ((hd.inv_mount.micros hmkdir).inv hd.inv_mount).wf.exists_touch ht
  rw [hrec₁] at hrec₂
  exact ⟨r₁, s₁, r₂, s₂, hmkdir, hzero₁, htouch, hzero₂, hrec₂⟩

/-- The nested file is found. -/
theorem find_exact_nested : ∃ s, Reachable (blankDisk 65536) s ∧ s.records = nestedTable ∧
    find s.records pathAB.chars = .ok (some 2) ∧
    ∃ c : Option (List (List UInt8)), vfsNormalizeRoot pathAB.chars = .ok (c.map joinParts) ∧
      find s.records pathAB.chars = .ok (c.bind (resolve s.records)) := by
  have hd := fresh_blankDisk 65536
  obtain ⟨r₁, s₁, r₂, s₂, hmkdir, -, htouch, -, hrec⟩ := exists_nested hd
  have hs : Reachable (blankDisk 65536) s₂ := (Run.boot.call trivial hmkdir).call trivial htouch
  obtain ⟨⟨c, -, hnorm, hfind⟩, -⟩ := find_exact hd hs pathAB
  have hlookup : lookup nestedTable pathAB.chars = some 2 := (fileAt_eq_some_iff.mp fileAt_pathAB).1
  refine ⟨s₂, hs, hrec, ?_, c, hnorm, hfind⟩
  rw [(hs.inv hd).wf.find_eq, hrec, hlookup]

end MinOS.Vfs
