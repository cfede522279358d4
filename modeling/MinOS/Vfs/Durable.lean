/-
# MinOS.Vfs.Durable — with a disk, `vfs.c` is the file tree behind a cache that starts cold.

Without a disk the filesystem is the tree (`MinOS.Vfs.Refine`). With one it is the tree on the medium,
which reboots leave alone, and one more bit for each tag: whether the file has been read or written since
the boot. Only an append looks at it. To a *warm* file it adds its data; of a *cold* one it keeps no byte
but the length, for the bytes it stores before the data come from a cache that the boot has cleared.

`CachedTree` says this without tables, sectors or caches, and `Stores` is the refinement relation: the
tree is the one of the table and the data sectors (`view`), the rows of warm files are coherent, those of
all other slots are zero. Every call and every reboot keeps it (`Stores.call`, `Stores.reboot`), so whole
runs give the same replies, and runs that never append to a cold file are runs of the plain tree.
-/
import MinOS.Vfs.Append
import MinOS.Vfs.Refine

namespace MinOS.Vfs

open MinOS.Ata Machine
open Bytes (chars)

/-! ## The tree and its cache -/

/-- A file tree, and the tags whose files have been read or written since the boot -/
structure CachedTree where
  tree : Tree
  warm : Slot → Prop

/-- What can happen to a filesystem -/
inductive Event
  | call (op : Op)
  | reboot

namespace CachedTree

variable {C : CachedTree} {p : PathArg}

/-- The same tree once file `i` has been read or written -/
def warmed (C : CachedTree) (i : Slot) : Slot → Prop := fun j => j = i ∨ C.warm j

/-- A result of the tree, with the warm files as they were -/
def keep (C : CachedTree) (x : Int × Tree) : Int × CachedTree := (x.1, ⟨x.2, C.warm⟩)

/-- A read warms the file, whatever its capacity. -/
def read (C : CachedTree) (p : PathArg) (cap : UInt32) : Option (List UInt8) × CachedTree :=
  match C.tree.get p with
  | some (i, .file b) => (some (b.val.take cap.toNat), ⟨C.tree, C.warmed i⟩)
  | _ => (none, C)

open Classical in
/-- What a write to a file of `b` under tag `i` does to the tree: an append to a cold file has zeros for
the old bytes. -/
noncomputable def writeTree (C : CachedTree) (p : PathArg) (i : Slot) (b : FileBytes) (d : List UInt8)
    (append : Bool) : Int × Tree :=
  if append = true ∧ ¬ C.warm i then C.tree.write p (List.replicate b.val.length 0 ++ d) false
  else C.tree.write p d append

/-- A write warms the file. -/
noncomputable def write (C : CachedTree) (p : PathArg) (d : List UInt8) (append : Bool) :
    Int × CachedTree :=
  match C.tree.get p with
  | some (i, .file b) => ((C.writeTree p i b d append).1, ⟨(C.writeTree p i b d append).2, C.warmed i⟩)
  | _ => (-1, C)

/-- Read, touch, write. -/
noncomputable def copy (C : CachedTree) (src dst : PathArg) : Int × CachedTree :=
  match (C.read src 4096).1 with
  | none => (-1, (C.read src 4096).2)
  | some b =>
    let touched := (C.read src 4096).2.keep (C.tree.touch dst)
    if touched.1 ≠ 0 then (-1, touched.2)
    else if (touched.2.write dst b false).1 ≠ 0 then (-1, (touched.2.write dst b false).2)
    else (0, (touched.2.write dst b false).2)

/-- Copy, then remove the source. -/
noncomputable def move (C : CachedTree) (src dst : PathArg) : Int × CachedTree :=
  if (C.copy src dst).1 ≠ 0 then (-1, (C.copy src dst).2)
  else (C.copy src dst).2.keep ((C.copy src dst).2.tree.remove src)

/-- One call -/
noncomputable def call (C : CachedTree) : Op → Reply × CachedTree
  | .mkdir p => (C.keep (C.tree.create p .directory)).map .code id
  | .rmdir p => (C.keep (C.tree.rmdir p)).map .code id
  | .touch p => (C.keep (C.tree.touch p)).map .code id
  | .remove p => (C.keep (C.tree.remove p)).map .code id
  | .read p cap => (C.read p cap).map .data id
  | .write p d append => (C.write p d append).map .code id
  | .copy src dst => (C.copy src dst).map .code id
  | .move src dst => (C.move src dst).map .code id
  | .list p max => (.entries (C.tree.list p max), C)
  | .stat p => (.stat (C.tree.stat p), C)

/-- A reboot succeeds, keeps the tree and makes every file cold. -/
noncomputable def step (C : CachedTree) : Event → Reply × CachedTree
  | .call op => C.call op
  | .reboot => (.code 0, ⟨C.tree, fun _ => False⟩)

/-- The tree a first boot makes -/
def empty : CachedTree := ⟨.empty, fun _ => False⟩

theorem read_of_file {i : Slot} {b : FileBytes} (h : C.tree.get p = some (i, .file b)) (cap : UInt32) :
    C.read p cap = (some (b.val.take cap.toNat), ⟨C.tree, C.warmed i⟩) := by
  rw [read, h]

theorem read_of_not_file (h : ∀ i b, C.tree.get p ≠ some (i, .file b)) (cap : UInt32) :
    C.read p cap = (none, C) := by
  rw [read]
  split
  · rename_i i b hb
    exact absurd hb (h i b)
  · rfl

theorem write_of_file {i : Slot} {b : FileBytes} (h : C.tree.get p = some (i, .file b)) (d : List UInt8)
    (append : Bool) :
    C.write p d append = ((C.writeTree p i b d append).1, ⟨(C.writeTree p i b d append).2, C.warmed i⟩) := by
  rw [write, h]

theorem write_of_not_file (h : ∀ i b, C.tree.get p ≠ some (i, .file b)) (d : List UInt8)
    (append : Bool) : C.write p d append = (-1, C) := by
  rw [write]
  split
  · rename_i i b hb
    exact absurd hb (h i b)
  · rfl

end CachedTree

/-! ## The tree in a state with a disk -/

/-- The state with the bytes of the medium for its cache, and no disk -/
def view (s : State) : State :=
  { s with contents := fun i => blockAt s.drive (slotLba i), diskBacked := false }

/-- The tree in a state depends on the table and the bytes its files hold. -/
theorem Refines.congr {v w : State} {T : Tree} (h : Refines v T) (hvolatile : w.diskBacked = false)
    (hrecords : w.records = v.records)
    (hrow : ∀ i, Writable v.records i → (List.ofFn (w.contents i)).take (v.records i).size.toNat
      = (List.ofFn (v.contents i)).take (v.records i).size.toNat) : Refines w T := by
  refine ⟨hrecords ▸ h.wf, hvolatile, fun p i a => ?_⟩
  rw [h.entry, hrecords]
  apply and_congr_right
  intro hp
  have hnode : nodeOf w i = nodeOf v i := by
    by_cases hfile : (v.records i).type = VfsType.file.code
    · have hfile' : (w.records i).type = VfsType.file.code := by rw [hrecords, hfile]
      rw [nodeOf_file hfile, nodeOf_file hfile']
      congr 1
      apply Subtype.ext
      rw [bytesOf_val, bytesOf_val, hrecords]
      exact hrow i ⟨h.wf.path_used hp, hfile⟩
    · have hfile' : (w.records i).type ≠ VfsType.file.code := by rwa [hrecords]
      rw [nodeOf, nodeOf, if_neg hfile, if_neg hfile']
  rw [hnode]

/-- **The refinement relation**: the tree is on the medium, with the table that memory holds; rows of
warm files are coherent, and those of cold slots are as the boot left them. -/
structure Stores (s : State) (C : CachedTree) : Prop where
  tree : Refines (view s) C.tree
  healthy : Healthy s
  roomy : Roomy s.drive
  synced : Synced s
  warm : ∀ n, C.warm n → Writable s.records n → Coherent s n
  cold : ∀ n, ¬ C.warm n → s.contents n = fun _ => 0

/-- The call returned what the cached tree returns, and left a state that stores it. -/
def Answers {β : Type} (x : Except Fault (β × State)) (y : β × CachedTree) : Prop :=
  ∃ s', x = .ok (y.1, s') ∧ Stores s' y.2

section OneCall

variable {s : State} {C : CachedTree} (h : Stores s C)
include h

theorem Stores.wf : Wf s.records := h.tree.wf

/-- A flush of a table that differs in a record without bytes -/
theorem Stores.edit {k : Slot} {r : VfsRecord} {T : Tree}
    (hr : r.used ≠ 0 → r.type = VfsType.file.code → r.size = 0)
    (hT : Refines ((view s).setRecord k r) T) :
    (persist (s.setRecord k r)).1 = 0 ∧ Stores (persist (s.setRecord k r)).2 ⟨T, C.warm⟩ := by
  have hh := h.healthy.setRecord k r
  refine ⟨(persist_fst_eq_zero_iff _).mpr hh.flushed, ?_, hh, ?_, ?_, ?_, ?_⟩
  · refine hT.congr rfl (by simp [view]) fun i _ => ?_
    rw [show (view (persist (s.setRecord k r)).2).contents i
        = blockAt (persist (s.setRecord k r)).2.drive (slotLba i) from rfl, blockAt_persist]
    rfl
  · show 65544 ≤ (persist (s.setRecord k r)).2.drive.sectorCount.toNat
    rw [persist_sectorCount]
    exact h.roomy
  · exact ⟨hh.backed, stored_persist_of_working h.healthy.backed h.healthy.drive⟩
  · intro n hn
    obtain ⟨tr, -, hrow⟩ := (rowStep_setRecord hr).trans (rowStep_persist (s.setRecord k r))
    exact (hrow n).2.2 (h.warm n hn)
  · intro n hn
    rw [persist_contents]
    exact h.cold n hn

/-- A call that gives up on the table gives up on the view too. -/
theorem Stores.refused {y : Int × Tree} {v : State} (hv : (-1, view s) = (y.1, v))
    (hT : Refines v y.2) : Answers (.ok (-1, s)) (C.keep y) := by
  obtain ⟨hcode, rfl⟩ := Prod.mk.inj hv
  exact ⟨s, by rw [CachedTree.keep, ← hcode], hT, h.healthy, h.roomy, h.synced, h.warm, h.cold⟩

/-- A call that edits a record and flushes -/
theorem Stores.flushed {k : Slot} {r : VfsRecord}
    (hr : r.used ≠ 0 → r.type = VfsType.file.code → r.size = 0) {y : Int × Tree} {v : State}
    (hv : persist ((view s).setRecord k r) = (y.1, v)) (hT : Refines v y.2) :
    Answers (.ok (persist (s.setRecord k r))) (C.keep y) := by
  rw [persist_volatile rfl] at hv
  obtain ⟨hcode, rfl⟩ := Prod.mk.inj hv
  obtain ⟨hrc, hs⟩ := h.edit hr (hT.congr rfl rfl fun _ _ => rfl)
  exact ⟨_, by rw [CachedTree.keep, ← hcode, ← hrc], hs⟩

theorem Stores.create (p : PathArg) (type : VfsType) :
    Answers (create s p.chars type) (C.keep (C.tree.create p type.emptyNode)) := by
  obtain ⟨v, hv, hT⟩ := h.tree.agrees_create p type
  rw [h.tree.wf.create_eq, show (view s).records = s.records from rfl] at hv
  rw [h.wf.create_eq]
  cases ht : createTarget s.records p.chars with
  | none =>
    rw [ht] at hv
    exact h.refused (Except.ok.inj hv) hT
  | some x =>
    rw [ht] at hv
    exact h.flushed (fun _ _ => rfl) (Except.ok.inj hv) hT

theorem Stores.touch (p : PathArg) : Answers (vfsTouch s p.chars) (C.keep (C.tree.touch p)) := by
  have hget : (C.tree.get p).isSome = (lookup s.records p.chars).isSome := by
    rw [h.tree.get_eq, Option.isSome_map]
    rfl
  rw [h.wf.touch_eq, Tree.touch, hget]
  split
  · exact ⟨s, rfl, h⟩
  · exact h.create p .file

theorem Stores.rmdir (p : PathArg) : Answers (vfsRmdir s p.chars) (C.keep (C.tree.rmdir p)) := by
  obtain ⟨v, hv, hT⟩ := h.tree.agrees_rmdir p
  rw [h.tree.wf.rmdir_eq, show (view s).records = s.records from rfl] at hv
  rw [h.wf.rmdir_eq]
  cases hn : rmdirTarget s.records p.chars with
  | none =>
    rw [hn] at hv
    exact h.refused (Except.ok.inj hv) hT
  | some n =>
    rw [hn] at hv
    exact h.flushed (fun hu _ => absurd rfl hu) (Except.ok.inj hv) hT

theorem Stores.remove (p : PathArg) : Answers (vfsRemove s p.chars) (C.keep (C.tree.remove p)) := by
  obtain ⟨v, hv, hT⟩ := h.tree.agrees_remove p
  rw [h.tree.wf.remove_eq, show (view s).records = s.records from rfl] at hv
  rw [h.wf.remove_eq]
  cases hn : fileAt s.records p.chars with
  | none =>
    rw [hn] at hv
    exact h.refused (Except.ok.inj hv) hT
  | some n =>
    rw [hn] at hv
    exact h.flushed (fun hu _ => absurd rfl hu) (Except.ok.inj hv) hT

/-- Where the data of a file is, and that the disk has it -/
theorem Stores.dataLba {n : Slot} (hw : Writable s.records n) : (s.records n).dataLba = slotLba n :=
  h.wf.lba n (h.wf.ne_root_of_writable hw) hw.used

theorem Stores.serves (n : Slot) : Serves s.drive (slotLba n) :=
  serves_of_roomy h.healthy.drive.present h.roomy n

/-- After a refresh the file is warm. -/
theorem Stores.refresh {n : Slot} (hw : Writable s.records n) :
    Stores (refresh s n).2 ⟨C.tree, C.warmed n⟩ := by
  have hlba := h.dataLba hw
  have hh := h.healthy.refresh n
  obtain ⟨hp, hcount, hsectors, -⟩ := refresh_frame s n
  have hok : (Vfs.refresh s n).1 = true :=
    (refresh_fst_iff h.healthy.backed h.healthy.drive.reads).mpr (hlba ▸ h.serves n)
  have hgeneration : (Vfs.refresh s n).2.generation = s.generation := by
    unfold Vfs.refresh
    split <;> rfl
  have hother : ∀ m, m ≠ n → (Vfs.refresh s n).2.contents m = s.contents m := by
    intro m hm
    unfold Vfs.refresh
    rw [if_pos h.healthy.backed]
    exact Function.update_of_ne hm _ _
  have hblock : ∀ m, blockAt (Vfs.refresh s n).2.drive (slotLba m) = blockAt s.drive (slotLba m) :=
    fun m => blockAt_congr fun i => by rw [hsectors]
  obtain ⟨tr, -, hrow⟩ := rowStep_refresh h.healthy.backed hlba hok
  refine ⟨?_, hh, ?_, ?_, ?_, ?_⟩
  · refine h.tree.congr rfl (refresh_records s n) fun i _ => ?_
    rw [show (view (Vfs.refresh s n).2).contents i
        = blockAt (Vfs.refresh s n).2.drive (slotLba i) from rfl, hblock]
    rfl
  · rw [Roomy, hcount]
    exact h.roomy
  · refine ⟨hh.backed, ?_⟩
    rw [stored_congr hp hcount fun i => by rw [hsectors], h.synced.2, hgeneration, refresh_records]
  · intro m hm hwm
    rcases eq_or_ne m n with rfl | hne
    · intro k _
      rw [refresh_contents h.healthy.backed hok, hlba, hblock]
    · exact (hrow m).2.2 (h.warm m (hm.resolve_left hne)) hwm
  · intro m hm
    rw [hother m fun hmn => hm (Or.inl hmn)]
    exact h.cold m fun hc => hm (Or.inr hc)

theorem Stores.read (p : PathArg) (cap : UInt32) :
    Answers (vfsRead s p.chars cap) (C.read p cap) := by
  rw [h.wf.read_eq]
  cases hn : fileAt s.records p.chars with
  | none =>
    rw [C.read_of_not_file fun i b => h.tree.get_ne_file hn i b]
    exact ⟨s, rfl, h⟩
  | some n =>
    have hw := h.wf.writable_of_fileAt hn
    have hlba := h.dataLba hw
    rw [C.read_of_file (h.tree.get_file hn)]
    refine ⟨(Vfs.refresh s n).2, ?_, h.refresh hw⟩
    have hread := h.healthy.readAt_ok (n := n) (hlba ▸ h.serves n) cap
    rw [hlba] at hread
    show Except.ok (readAt s n cap) = _
    congr 1
    refine Prod.ext ?_ (readAt_snd s n cap)
    rw [hread, bytesOf_val, List.take_take, Nat.min_comm]
    rfl

/-- **A write is judged by the bytes it stores**: those before its offset in the cache, then the data.
If a write to the view would store the same, the table and the medium end up alike. -/
theorem Stores.writeAt {p : PathArg} {n : Slot} (hn : fileAt s.records p.chars = some n) {pos : Nat}
    (hpos : pos ≤ vfsContentMax) (d : List UInt8) {d' : List UInt8} {append' : Bool}
    (hbytes : (List.ofFn (s.contents n)).take pos ++ d.take (vfsContentMax - pos)
      = (List.ofFn (blockAt s.drive (slotLba n))).take (writePos s.records n append') ++
        d'.take (vfsContentMax - writePos s.records n append')) :
    Answers (.ok (writeAt s n pos d))
      ((C.tree.write p d' append').1, ⟨(C.tree.write p d' append').2, C.warmed n⟩) := by
  have hw := h.wf.writable_of_fileAt hn
  have hlba := h.dataLba hw
  have hpos' := h.wf.writePos_le hw append'
  obtain ⟨heq, hzero⟩ := writeAt_eq_of_roomy h.wf h.healthy h.roomy hw pos d
  obtain ⟨hstep, hblock⟩ := rowStep_dataWritten pos d hlba (h.serves n) h.healthy.drive.writes
  obtain ⟨tr, -, hrow⟩ := hstep.trans (rowStep_persist (dataWritten s n pos d))
  have hsize : writtenSize pos d = writtenSize (writePos s.records n append') d' := by
    apply UInt32.toNat_inj.mp
    rw [toNat_writtenSize hpos, toNat_writtenSize hpos']
    have hlen := congrArg List.length hbytes
    simp only [List.length_append, List.length_take, List.length_ofFn] at hlen
    have hmax : vfsContentMax = 4096 := rfl
    omega
  obtain ⟨v, hv, hT⟩ := h.tree.agrees_write p d' append'
  rw [h.tree.wf.write_eq, show (view s).records = s.records from rfl, hn] at hv
  dsimp only at hv
  rw [writeAt_eq, if_neg (by simp [view]), persist_volatile rfl] at hv
  obtain ⟨hcode, rfl⟩ := Prod.mk.inj (Except.ok.inj hv)
  have hh := h.healthy.writeAt n pos d
  rw [heq] at hzero hh ⊢
  have hrecords : (persist (dataWritten s n pos d)).2.records
      = (written (view s) n (writePos s.records n append') d').records := by
    rw [persist_records, written_records, ← hsize]
    rfl
  refine ⟨(persist (dataWritten s n pos d)).2, by rw [← hcode, ← hzero], ?_, hh, ?_, ?_, ?_, ?_⟩
  · refine hT.congr rfl hrecords fun i _ => ?_
    rw [show (view (persist (dataWritten s n pos d)).2).contents i
        = blockAt (persist (dataWritten s n pos d)).2.drive (slotLba i) from rfl, blockAt_persist]
    rcases eq_or_ne i n with rfl | hne
    · have hsame : ((written s i pos d).records i).size
          = ((written (view s) i (writePos s.records i append') d').records i).size := by
        rw [written_records, written_records, Function.update_self, Function.update_self, hsize]
      have hstored := take_written s i hpos d
      have hwant := take_written (view s) i hpos' d'
      rw [hsame] at hstored
      rw [hblock]
      exact hstored.trans (hbytes.trans hwant.symm)
    · rw [blockAt_dataWritten_of_ne pos d hlba hne, written_contents, Function.update_of_ne hne]
      rfl
  · show 65544 ≤ (persist (dataWritten s n pos d)).2.drive.sectorCount.toNat
    rw [persist_sectorCount]
    exact (writeSectors_sectorCount _ _ _ _).symm ▸ h.roomy
  · refine ⟨hh.backed, stored_persist_of_working h.healthy.backed ?_⟩
    exact h.healthy.drive.congr (writeSectors_present _ _ _ _) (writeSectors_sectorCount _ _ _ _)
      ((writeSectors_readScript _ _ _ _).trans h.healthy.drive.reads)
      (writeSectors_writeScript_of_nil _ _ _ _ h.healthy.drive.writes)
  · intro m hm hwm
    rcases eq_or_ne m n with rfl | hne
    · intro k _
      rw [persist_contents, blockAt_persist, hblock]
    · exact (hrow m).2.2 (h.warm m (hm.resolve_left hne)) hwm
  · intro m hm
    have hne : m ≠ n := fun hmn => hm (Or.inl hmn)
    rw [persist_contents]
    show Function.update s.contents n _ m = _
    rw [Function.update_of_ne hne]
    exact h.cold m fun hc => hm (Or.inr hc)

/-- What a write stores, for each kind of write -/
theorem Stores.write (p : PathArg) (d : List UInt8) (append : Bool) :
    Answers (vfsWrite s p.chars d append) (C.write p d append) := by
  rw [h.wf.write_eq]
  cases hn : fileAt s.records p.chars with
  | none =>
    rw [C.write_of_not_file fun i b => h.tree.get_ne_file hn i b]
    exact ⟨s, rfl, h⟩
  | some n =>
    have hw := h.wf.writable_of_fileAt hn
    have hpos := h.wf.writePos_le hw append
    rw [C.write_of_file (h.tree.get_file hn), CachedTree.writeTree]
    by_cases hcold : append = true ∧ ¬ C.warm n
    · -- the cached bytes are the zeros of the boot
      obtain ⟨rfl, hc⟩ := hcold
      have hsize : (s.records n).size.toNat ≤ 4096 := h.wf.size n hw.used
      have hlen : (bytesOf (view s) n).val.length = (s.records n).size.toNat := by
        rw [bytesOf_val, List.length_take, List.length_ofFn]
        exact Nat.min_eq_left hsize
      have hzeros : List.replicate (bytesOf (view s) n).val.length 0
          = (List.ofFn (s.contents n)).take (s.records n).size.toNat := by
        rw [hlen, h.cold n hc, List.ofFn_const, List.take_replicate, Nat.min_eq_left hsize]
      rw [if_pos ⟨rfl, hc⟩, hzeros]
      apply h.writeAt hn hpos d
      rw [show writePos s.records n true = (s.records n).size.toNat from rfl,
        show writePos s.records n false = 0 from rfl, ← take_append_row _ hsize, List.take_zero,
        List.nil_append, Nat.sub_zero]
    · have hbefore : (List.ofFn (s.contents n)).take (writePos s.records n append)
          = (List.ofFn (blockAt s.drive (slotLba n))).take (writePos s.records n append) := by
        cases append with
        | false =>
          rw [show writePos s.records n false = 0 from rfl, List.take_zero, List.take_zero]
        | true =>
          have hwarm : C.warm n := by
            by_contra hc
            exact hcold ⟨rfl, hc⟩
          exact (take_ofFn_eq_iff _ _ _).mpr (h.warm n hwarm hw)
      rw [if_neg hcold]
      exact h.writeAt hn hpos d (by rw [hbefore])

theorem Stores.copy (src dst : PathArg) :
    Answers (vfsCopy s src.chars dst.chars) (C.copy src dst) := by
  obtain ⟨s₁, hread, h₁⟩ := h.read src 4096
  have htree : (C.read src 4096).2.tree = C.tree := by
    unfold CachedTree.read
    split <;> rfl
  rw [vfsCopy, hread, ok_bind, CachedTree.copy]
  cases (C.read src 4096).1 with
  | none => exact ⟨s₁, rfl, h₁⟩
  | some b =>
    obtain ⟨s₂, htouch, h₂⟩ := h₁.touch dst
    rw [htree] at htouch h₂
    simp only [htouch, ok_bind]
    by_cases hr₂ : ((C.read src 4096).2.keep (C.tree.touch dst)).1 ≠ 0
    · rw [if_pos hr₂, if_pos hr₂]
      exact ⟨s₂, rfl, h₂⟩
    · obtain ⟨s₃, hwrite, h₃⟩ := h₂.write dst b false
      rw [if_neg hr₂, if_neg hr₂]
      simp only [hwrite, ok_bind]
      split <;> exact ⟨s₃, rfl, h₃⟩

theorem Stores.move (src dst : PathArg) :
    Answers (vfsMove s src.chars dst.chars) (C.move src dst) := by
  obtain ⟨s₁, hcopy, h₁⟩ := h.copy src dst
  rw [vfsMove, hcopy, ok_bind, CachedTree.move]
  dsimp only
  split
  · exact ⟨s₁, rfl, h₁⟩
  · exact h₁.remove src

/-- **One call**: the reply of the cached tree, and the states still correspond. -/
theorem Stores.call (op : Op) : Answers (step s op) (C.call op) := by
  have hreply : ∀ {β : Type} {f : β → Reply} {x : Except Fault (β × State)} {y : β × CachedTree},
      Answers x y → Answers (x >>= fun a => pure (a.map f id)) (y.map f id) := by
    rintro β f x y ⟨s', hx, h'⟩
    exact ⟨s', reply_eq_ok_iff.mpr ⟨y.1, hx, rfl⟩, h'⟩
  cases op with
  | mkdir p => exact hreply (h.create p .directory)
  | rmdir p => exact hreply (h.rmdir p)
  | touch p => exact hreply (h.touch p)
  | remove p => exact hreply (h.remove p)
  | write p d append => exact hreply (h.write p d append)
  | copy src dst => exact hreply (h.copy src dst)
  | move src dst => exact hreply (h.move src dst)
  | read p cap => exact hreply (h.read p cap)
  | list p max =>
    have hlist : vfsList s p.chars max = .ok (C.tree.list p max) := h.tree.list_eq p max
    exact ⟨s, by rw [Vfs.step, hlist]; rfl, h⟩
  | stat p =>
    have hstat : vfsStatPath s p.chars = .ok (C.tree.stat p) := h.tree.stat_eq p
    exact ⟨s, by rw [Vfs.step, hstat]; rfl, h⟩

/-- **A reboot** returns 0, loads the table that memory held, and clears the cache. -/
theorem Stores.reboot : (mount s.drive).1 = 0 ∧
    Stores (mount s.drive).2 ⟨C.tree, fun _ => False⟩ := by
  have hcalm : calm s.drive = s.drive := calm_eq h.healthy.drive.reads h.healthy.drive.writes
  have hsame := h.synced.sameFiles_reboot h.wf.dataApart
  rw [hcalm, calm_of_healthy h.healthy] at hsame
  refine ⟨mount_of_calm h.healthy.drive.writes h.healthy.drive.serves, ?_,
    healthy_mount h.healthy.drive, ?_, synced_mount h.healthy.drive.writes h.healthy.drive.serves,
    fun n hn => hn.elim, fun n _ => by rw [mount_contents]⟩
  · refine h.tree.congr rfl hsame.records fun i hw => ?_
    have hw' : Writable s.records i := hw
    have hdata := hsame.data i (Or.inr hw'.used) hw'.file
    rw [h.dataLba hw'] at hdata
    rw [show (view (mount s.drive).2).contents i = blockAt (mount s.drive).2.drive (slotLba i) from rfl,
      blockAt_congr hdata]
    rfl
  · rw [Roomy, mount_sectorCount]
    exact h.roomy

end OneCall

/-! ## Runs -/

/-- One event of the filesystem: a call, or the power going and `vfs_init` running over the disk -/
def eventStep (s : State) : Event → Except Fault (Reply × State)
  | .call op => step s op
  | .reboot => .ok (.code (mount s.drive).1, (mount s.drive).2)

theorem Stores.event {s : State} {C : CachedTree} (h : Stores s C) (e : Event) :
    Answers (eventStep s e) (C.step e) := by
  cases e with
  | call op => exact h.call op
  | reboot =>
    obtain ⟨hrc, hs⟩ := h.reboot
    exact ⟨_, by rw [eventStep, hrc, CachedTree.step], hs⟩

/-- The first boot makes the empty tree. -/
theorem stores_mount {d : Drive} (hd : Fresh d) (hw : Working d) (hroom : Roomy d) :
    Stores (mount d).2 .empty := by
  have hrecords : (mount d).2.records = initTable := by
    rw [mount_eq, persist_records]
    exact (bootState_of_fresh hd).1
  have hnofile : ∀ i, (initTable i).used ≠ 0 → (initTable i).type ≠ VfsType.file.code := by decide
  refine ⟨?_, healthy_mount hw, ?_, synced_mount hw.writes hw.serves, fun n hn => hn.elim,
    fun n _ => by rw [mount_contents]⟩
  · refine (refines_vfsInit (State.boot noDrive) rfl).2.congr rfl hrecords fun i hi => ?_
    exact absurd hi.file (hnofile i hi.used)
  · rw [Roomy, mount_sectorCount]
    exact hroom

/-- **With a disk the filesystem is the cached tree.** From the first boot on a working disk with room for
every slot, every sequence of calls and reboots faults nowhere and returns, call by call, what the cached
tree returns; reboots return 0. The state it ends in stores the tree it ends in. -/
theorem disk_refines_cached_tree {d : Drive} (hd : Fresh d) (hw : Working d) (hroom : Roomy d)
    (es : List Event) : (mount d).1 = 0 ∧
    ∃ s, run eventStep (mount d).2 es = .ok ((refRun CachedTree.step .empty es).1, s) ∧
      Stores s (refRun CachedTree.step .empty es).2 := by
  refine ⟨mount_of_calm hw.writes hw.serves, ?_⟩
  apply run_simulates (R := Stores) _ es _ _ (stores_mount hd hw hroom)
  intro s C e h
  exact h.event e

/-- A nested file with a byte of text, a reboot, an append to the cold file, and a read -/
def coldAppend : List Event :=
  [.call (.mkdir pathA), .call (.touch pathAB), .call (.write pathAB [120] false), .reboot,
    .call (.write pathAB [121] true), .call (.read pathAB 4096)]

theorem disk_refines_cached_tree_coldAppend : (mount (blankDisk 65544)).1 = 0 ∧
    ∃ s, run eventStep (mount (blankDisk 65544)).2 coldAppend
        = .ok ((refRun CachedTree.step .empty coldAppend).1, s) ∧
      Stores s (refRun CachedTree.step .empty coldAppend).2 :=
  disk_refines_cached_tree (fresh_blankDisk 65544) working_65544 roomy_65544 coldAppend

/-! ## Runs without cold appends -/

/-- The plain tree, on which reboots do nothing -/
noncomputable def Tree.event (T : Tree) : Event → Reply × Tree
  | .call op => T.step op
  | .reboot => (.code 0, T)

/-- An append, if the event is one, is to a file that is warm or has nothing but zeros. -/
def CachedTree.Safe (C : CachedTree) (e : Event) : Prop :=
  ∀ p d i b, e = .call (.write p d true) → C.tree.get p = some (i, .file b) →
    C.warm i ∨ b.val = List.replicate b.val.length 0

/-- Every append of the run is safe when it comes. -/
def CachedTree.Careful : CachedTree → List Event → Prop
  | _, [] => True
  | C, e :: es => C.Safe e ∧ Careful (C.step e).2 es

/-- Writes that make the same bytes are the same. -/
theorem Tree.write_congr {T : Tree} {p : PathArg} {d d' : List UInt8} {append append' : Bool}
    (h : ∀ i b, T.get p = some (i, .file b) → newBytes b d append = newBytes b d' append') :
    T.write p d append = T.write p d' append' := by
  unfold write
  split
  · rfl
  · rename_i c hp
    rw [get, hp, Option.bind_some] at h
    split
    · rename_i i b hb
      simp only [h i b hb]
    · rfl

namespace CachedTree

variable {C : CachedTree}

theorem read_fst (p : PathArg) (cap : UInt32) : (C.read p cap).1 = C.tree.read p cap := by
  rw [read, Tree.read]
  cases C.tree.get p with
  | none => rfl
  | some e =>
    obtain ⟨i, a⟩ := e
    cases a <;> rfl

theorem read_tree (p : PathArg) (cap : UInt32) : (C.read p cap).2.tree = C.tree := by
  unfold read
  split <;> rfl

/-- A write that is no cold append is the tree's. -/
theorem write_tree {p : PathArg} {d : List UInt8} {append : Bool}
    (h : C.Safe (.call (.write p d append))) :
    (C.write p d append).1 = (C.tree.write p d append).1 ∧
      (C.write p d append).2.tree = (C.tree.write p d append).2 := by
  have hsame : ∀ i b, C.tree.get p = some (i, .file b) →
      C.writeTree p i b d append = C.tree.write p d append := by
    intro i b hget
    rw [writeTree]
    split
    · rename_i hcold
      obtain ⟨rfl, hc⟩ := hcold
      have hzeros := (h p d i b rfl hget).resolve_left hc
      apply Tree.write_congr
      intro j c hj
      obtain ⟨rfl, hnode⟩ := Prod.mk.inj (Option.some.inj (hget.symm.trans hj))
      cases hnode
      rw [Tree.newBytes, Tree.newBytes, ← hzeros]
      rfl
    · rfl
  obtain ⟨hT, hno⟩ | ⟨c, i, b, T', hp, hentry, -, -⟩ := C.tree.write_cases p d append
  · rw [C.write_of_not_file hno, hT]
    exact ⟨rfl, rfl⟩
  · have hget : C.tree.get p = some (i, .file b) := by
      rw [Tree.get, hp, Option.bind_some]
      exact hentry
    rw [C.write_of_file hget, hsame i b hget]
    exact ⟨rfl, rfl⟩

/-- An overwrite is safe. -/
theorem safe_overwrite (C : CachedTree) (p : PathArg) (d : List UInt8) :
    C.Safe (.call (.write p d false)) := by
  intro q d' i b he
  cases he

theorem copy_tree (src dst : PathArg) : (C.copy src dst).1 = (C.tree.copy src dst).1 ∧
    (C.copy src dst).2.tree = (C.tree.copy src dst).2 := by
  rw [copy, Tree.copy, read_fst]
  cases C.tree.read src 4096 with
  | none => exact ⟨rfl, read_tree src 4096⟩
  | some b =>
    have hwrite := ((C.read src 4096).2.keep (C.tree.touch dst)).2.write_tree
      (safe_overwrite _ dst b)
    dsimp only [keep] at hwrite ⊢
    obtain ⟨hcode, htree⟩ := hwrite
    rw [hcode]
    split
    · exact ⟨rfl, rfl⟩
    · split <;> exact ⟨rfl, htree⟩

theorem move_tree (src dst : PathArg) : (C.move src dst).1 = (C.tree.move src dst).1 ∧
    (C.move src dst).2.tree = (C.tree.move src dst).2 := by
  obtain ⟨hcode, htree⟩ := C.copy_tree src dst
  rw [move, Tree.move, hcode, htree]
  split
  · exact ⟨rfl, htree⟩
  · exact ⟨rfl, rfl⟩

/-- **One safe event** is one of the plain tree. -/
theorem step_tree {e : Event} (h : C.Safe e) :
    (C.step e).1 = (C.tree.event e).1 ∧ (C.step e).2.tree = (C.tree.event e).2 := by
  cases e with
  | reboot => exact ⟨rfl, rfl⟩
  | call op =>
    cases op with
    | mkdir p => exact ⟨rfl, rfl⟩
    | rmdir p => exact ⟨rfl, rfl⟩
    | touch p => exact ⟨rfl, rfl⟩
    | remove p => exact ⟨rfl, rfl⟩
    | read p cap => exact ⟨congrArg Reply.data (read_fst p cap), read_tree p cap⟩
    | write p d append =>
      obtain ⟨hcode, htree⟩ := C.write_tree h
      exact ⟨congrArg Reply.code hcode, htree⟩
    | copy src dst => exact ⟨congrArg Reply.code (C.copy_tree src dst).1, (C.copy_tree src dst).2⟩
    | move src dst => exact ⟨congrArg Reply.code (C.move_tree src dst).1, (C.move_tree src dst).2⟩
    | list p max => exact ⟨rfl, rfl⟩
    | stat p => exact ⟨rfl, rfl⟩

/-- **A careful run** is one of the plain tree. -/
theorem Careful.refRun_eq {es : List Event} : ∀ {C : CachedTree}, Careful C es →
    (refRun step C es).1 = (refRun Tree.event C.tree es).1 ∧
      (refRun step C es).2.tree = (refRun Tree.event C.tree es).2 := by
  induction es with
  | nil => intro C _; exact ⟨rfl, rfl⟩
  | cons e es ih =>
    rintro C ⟨hsafe, hrest⟩
    obtain ⟨hreply, htree⟩ := step_tree hsafe
    obtain ⟨hreplies, hlast⟩ := ih hrest
    rw [refRun, refRun, hreply, hreplies, hlast, htree]
    exact ⟨rfl, rfl⟩

end CachedTree

/-- **Without cold appends a reboot is not noticed.** On a working disk with room for every slot, a run
of calls and reboots whose appends are to files read or written since the last boot (or empty, or all
zero) returns call by call what the plain file tree returns, on which a reboot does nothing, and leaves
that tree in the table and the data sectors. -/
theorem careful_run_refines_tree {d : Drive} (hd : Fresh d) (hw : Working d) (hroom : Roomy d)
    (es : List Event) (hcareful : CachedTree.Careful .empty es) : ∃ s,
    run eventStep (mount d).2 es = .ok ((refRun Tree.event .empty es).1, s) ∧
      Refines (view s) (refRun Tree.event .empty es).2 := by
  have hsim : ∃ s, run eventStep (mount d).2 es = .ok ((refRun CachedTree.step .empty es).1, s) ∧
      Stores s (refRun CachedTree.step .empty es).2 := by
    apply run_simulates (R := Stores) _ es _ _ (stores_mount hd hw hroom)
    intro s C e h
    exact h.event e
  obtain ⟨s, hrun, hs⟩ := hsim
  obtain ⟨hreplies, htree⟩ := hcareful.refRun_eq
  refine ⟨s, ?_, ?_⟩
  · rw [hrun, hreplies]
    rfl
  · exact htree ▸ hs.tree

/-- Create a file, append to it, reboot. -/
def appendThenReboot : List Event :=
  [.call (.touch pathA), .call (.write pathA [120] true), .reboot]

/-- The file is empty when the append comes. -/
theorem careful_appendThenReboot : CachedTree.Careful .empty appendThenReboot := by
  refine ⟨?_, ?_, ?_, trivial⟩
  · intro p d i b he
    cases he
  · intro p d i b he hget
    right
    have hempty : ∀ q j c, Tree.empty.entry q ≠ some (j, .file c) := by
      intro q j c hq
      change (if q = [] then some ((0 : Slot), Node.directory) else none) = _ at hq
      split at hq <;> cases hq
    obtain ⟨c, -, hentry⟩ := Option.bind_eq_some_iff.mp hget
    change (Tree.empty.touch pathA).2.entry c = _ at hentry
    rw [Tree.touch] at hentry
    split at hentry
    · exact absurd hentry (hempty _ _ _)
    · obtain ⟨hT, -⟩ | ⟨c', k, T', -, -, hT, hT'⟩ := Tree.empty.create_cases pathA (.file (.clip []))
      · rw [hT] at hentry
        exact absurd hentry (hempty _ _ _)
      · rw [hT, hT', Function.update_apply] at hentry
        split at hentry
        · cases hentry
          rfl
        · exact absurd hentry (hempty _ _ _)
  · intro p d i b he
    cases he

theorem careful_run_refines_tree_append : ∃ s,
    run eventStep (mount (blankDisk 65544)).2 appendThenReboot
      = .ok ((refRun Tree.event .empty appendThenReboot).1, s) := by
  obtain ⟨s, hrun, -⟩ := careful_run_refines_tree (fresh_blankDisk 65544) working_65544 roomy_65544
    appendThenReboot careful_appendThenReboot
  exact ⟨s, hrun⟩

end MinOS.Vfs
