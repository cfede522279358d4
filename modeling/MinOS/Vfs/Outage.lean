/-
# MinOS.Vfs.Outage — runs in which the power fails inside a call.

A power failure is a drive that stores the next `m` sectors of a call and none after them, whatever `m` is; when
the power comes back, `vfs_init` runs over what is on the medium. `MinOS.Vfs.Crash` has the record table of one such
call. Here are the trees of whole runs of calls, reboots and power failures.

A call other than `write`, `copy` and `move` is atomic: the tree is the old one or the new one. A `write` may leave
the file with its old length and some of its first sectors overwritten (`CachedTree.tornBytes`), and `copy` and
`move` go through the trees of the calls they are made of (`Interrupted`). No other path is touched, nothing faults,
the mount returns 0, and an append to a warm file is atomic. After a failure every file is cold, as after a reboot.
-/
import MinOS.Vfs.Crash
import MinOS.Vfs.Durable

namespace MinOS.Vfs

open MinOS.Ata NameTree Machine
open Bytes (chars)

/-! ## Tables with the same used records -/

theorem record_of_usedRecords {t u : Table} (h : usedRecords u = usedRecords t) {i : Slot}
    (hi : (t i).used ≠ 0) : u i = t i :=
  (h.symm ▸ (⟨hi, rfl⟩ : (i, t i) ∈ usedRecords t) : (i, t i) ∈ usedRecords u).2

theorem path_of_usedRecords {t u : Table} (h : usedRecords u = usedRecords t) {i : Slot}
    {p : List (List UInt8)} (hp : (links t).Path i p) : (links u).Path i p := by
  induction hp with
  | root => exact .root
  | @step i p hlive hroot _ ih =>
    have hrecord := record_of_usedRecords h hlive
    have hup : (links u).up i = (links t).up i := congrArg parentSlot hrecord
    have hlabel : (links u).label i = (links t).label i := congrArg (fun r : VfsRecord => chars r.name) hrecord
    rw [← hlabel]
    refine .step ?_ hroot (hup ▸ ih)
    show (u i).used ≠ 0
    rw [hrecord]
    exact hlive

theorem Wf.of_usedRecords {t u : Table} (h : Wf t) (hu : usedRecords u = usedRecords t) : Wf u := by
  -- a used record of either table is a record of the other
  have hto : ∀ {i}, (t i).used ≠ 0 → u i = t i := record_of_usedRecords hu
  have hback : ∀ {i}, (u i).used ≠ 0 → t i = u i := record_of_usedRecords hu.symm
  have hroot := hto h.root_used
  have hused : ∀ {i}, (u i).used ≠ 0 → (t i).used ≠ 0 := fun hi => by rwa [hback hi]
  constructor
  · rw [hroot]
    exact h.root_used
  · rw [hroot]
    exact h.root_type
  · rw [hroot]
    exact h.root_parent
  · intro i hi hui
    obtain ⟨j, hj, hjused, hjdir⟩ := h.parent i hi (hused hui)
    rw [hback hui] at hj
    exact ⟨j, hj, by rwa [hto hjused], by rwa [hto hjused]⟩
  · exact fun i hi hui => hback hui ▸ h.name i hi (hused hui)
  · exact fun i hui => hback hui ▸ h.type i (hused hui)
  · exact fun i hui => hback hui ▸ h.size i (hused hui)
  · exact fun i hui hdir => hback hui ▸ h.dir_size i (hused hui) (hback hui ▸ hdir)
  · exact fun i hi hui => hback hui ▸ h.lba i hi (hused hui)
  · intro i hui
    obtain ⟨p, hp, hc⟩ := h.path i (hused hui)
    exact ⟨p, path_of_usedRecords hu hp, hc⟩
  · have hchild : ∀ {j x i}, (links u).IsChild j x i → (links t).IsChild j x i := by
      rintro j x i ⟨hlive, hi, hup, hlabel⟩
      refine ⟨hused hlive, hi, ?_, ?_⟩
      · rw [← hup]
        exact congrArg parentSlot (hback hlive)
      · rw [← hlabel]
        exact congrArg (fun r : VfsRecord => chars r.name) (hback hlive)
    exact fun j x i i' hi hi' => h.distinct j x i i' (hchild hi) (hchild hi')

theorem Refines.of_usedRecords {v w : State} {T : Tree} (h : Refines v T) (hvolatile : w.diskBacked = false)
    (hused : usedRecords w.records = usedRecords v.records) (hcontents : w.contents = v.contents) :
    Refines w T := by
  refine ⟨h.wf.of_usedRecords hused, hvolatile, fun p i a => ?_⟩
  have hpath : (links w.records).Path i p ↔ (links v.records).Path i p :=
    ⟨path_of_usedRecords hused.symm, path_of_usedRecords hused⟩
  rw [h.entry, hpath]
  apply and_congr_right
  intro hp
  have hrecord := record_of_usedRecords hused (h.wf.path_used hp)
  rw [nodeOf_congr hrecord (congrFun hcontents i)]

/-! ## What is on the medium -/

/-- What a boot without cache and without disk would make of the medium, with this table -/
def medium (d : Drive) (t : Table) : State where
  records := t
  contents i := blockAt d (slotLba i)
  generation := 0
  diskBacked := false
  drive := d
  flushed := true

/-- **The medium stores the tree**, up to unused records. -/
structure OnMedium (d : Drive) (T : Tree) : Prop where
  roomy : Roomy d
  table : ∃ g t, stored d = some (g, t) ∧ Refines (medium d t) T

theorem Stores.onMedium {s : State} {C : CachedTree} (h : Stores s C) : OnMedium s.drive C.tree :=
  ⟨h.roomy, _, _, h.synced.2, h.tree.congr rfl rfl fun _ _ => rfl⟩

/-- The metadata say something else, the data are the same. -/
theorem OnMedium.congr {d e : Drive} {T : Tree} (h : OnMedium d T) (hc : e.sectorCount = d.sectorCount)
    {g : UInt32} {u : Table} (hu : stored e = some (g, u))
    (hused : ∀ g t, stored d = some (g, t) → usedRecords u = usedRecords t)
    (hrows : ∀ i, blockAt e (slotLba i) = blockAt d (slotLba i)) : OnMedium e T := by
  obtain ⟨g', t, ht, hT⟩ := h.table
  refine ⟨?_, g, u, hu, hT.of_usedRecords rfl (hused g' t ht) (funext hrows)⟩
  rw [Roomy, hc]
  exact h.roomy

theorem blockAt_mount (d : Drive) (i : Slot) : blockAt (mount d).2.drive (slotLba i) = blockAt d (slotLba i) := by
  rw [mount_eq, blockAt_persist]
  exact blockAt_congr fun j => by rw [(bootState_frame d).2.2.1]

/-- **The power comes back**: the mount returns 0, and all files are cold. -/
theorem OnMedium.mount {d : Drive} {T : Tree} (h : OnMedium d T) :
    (mount (calm d)).1 = 0 ∧ Stores (mount (calm d)).2 ⟨T, fun _ => False⟩ := by
  obtain ⟨g, t, ht, hT⟩ := h.table
  have hserves : Serves (calm d) vfsMetaLba := Serves.of_stored ht
  have hroom := h.roomy
  have hw : Working (calm d) := by
    refine ⟨hserves.present, ?_, rfl, rfl⟩
    unfold Roomy at hroom
    show 65032 ≤ d.sectorCount.toNat
    omega
  refine ⟨mount_of_calm rfl hserves, ?_, healthy_mount hw, ?_, synced_mount rfl hserves, fun n hn => hn.elim,
    fun n _ => by rw [mount_contents]⟩
  · refine hT.congr rfl (mount_calm ht).1 fun i _ => ?_
    show (List.ofFn (blockAt (Vfs.mount (calm d)).2.drive (slotLba i))).take _ = _
    rw [blockAt_mount]
    rfl
  · rw [Roomy, mount_sectorCount]
    exact hroom

/-! ## A drive that stores `m` more sectors -/

/-- As far as they are stored, the sectors are stored as on a drive that works. -/
theorem calm_writeSectors_cut (base : UInt32) (b : Block) (is : List (Fin 8)) :
    ∀ k d, CutAfter k d → is.length ≤ k → (∀ i ∈ is, ataTransferAccepts d (lbaAdd base i) = true) →
      calm (writeSectors base b is d).2 = (writeSectors base b is (calm d)).2 := by
  induction is with
  | nil => exact fun _ _ _ _ _ => rfl
  | cons i is ih =>
    intro k d hcut hlen hacc
    obtain ⟨k, rfl⟩ : ∃ k', k = k' + 1 := Nat.exists_eq_add_of_le' (by simp at hlen; omega)
    obtain ⟨rest, hrest⟩ := hcut
    have hi := hacc i List.mem_cons_self
    have hi' : ataTransferAccepts (calm d) (lbaAdd base i) = true := hi
    obtain ⟨hok, hscript⟩ := ataWrite28_of_stored d (lbaAdd base i) (sectorOf b i) hrest hi
    have hsame : calm (ataWrite28 d (lbaAdd base i) (sectorOf b i)).2
        = (ataWrite28 (calm d) (lbaAdd base i) (sectorOf b i)).2 := by
      rw [ataWrite28, ataWrite28, if_pos hi, if_pos hi', hrest]
      rfl
    have hok' : (ataWrite28 (calm d) (lbaAdd base i) (sectorOf b i)).1 = true := by
      rw [ataWrite28, if_pos hi']
      rfl
    rw [writeSectors_cons_ok base b is hok, writeSectors_cons_ok base b is hok', ← hsame]
    refine ih k _ ⟨rest, hscript⟩ (by simpa using hlen) fun j hj => ?_
    rw [ataTransferAccepts_congr (ataWrite28_present d _ _) (ataWrite28_sectorCount d _ _)]
    exact hacc j (List.mem_cons_of_mem i hj)

/-- Reads do not notice. -/
theorem readSectors_calm (base : UInt32) (is : List (Fin 8)) : ∀ b d, d.readScript = [] →
    readSectors base is b (calm d)
      = ((readSectors base is b d).1, (readSectors base is b d).2.1, calm (readSectors base is b d).2.2) := by
  induction is with
  | nil => exact fun _ _ _ => rfl
  | cons i is ih =>
    intro b d hreads
    have hacc : ataTransferAccepts (calm d) (lbaAdd base i) = ataTransferAccepts d (lbaAdd base i) := rfl
    have hsame : ataRead28 (calm d) (lbaAdd base i)
        = ((ataRead28 d (lbaAdd base i)).1, calm (ataRead28 d (lbaAdd base i)).2) := by
      rw [ataRead28, ataRead28, hacc, hreads]
      split <;> rfl
    have hfst := congrArg Prod.fst hsame
    cases hr : (ataRead28 d (lbaAdd base i)).1 with
    | none =>
      rw [readSectors_cons_none base is b hr, readSectors_cons_none base is b (hfst.trans hr), hsame]
    | some sector =>
      rw [readSectors_cons_some base is b hr, readSectors_cons_some base is b (hfst.trans hr), hsame]
      exact ih _ _ (ataRead28_readScript_of_nil d _ hreads)

theorem refresh_calm {s : State} (n : Slot) (hreads : s.drive.readScript = []) :
    refresh s.calm n = ((refresh s n).1, (refresh s n).2.calm) := by
  unfold refresh
  rw [show s.calm.diskBacked = s.diskBacked from rfl]
  split
  · dsimp only [State.calm]
    rw [readSectors_calm _ _ _ _ hreads]
    rfl
  · rfl

theorem readAt_calm {s : State} (n : Slot) (cap : UInt32) (hreads : s.drive.readScript = []) :
    readAt s.calm n cap = ((readAt s n cap).1, (readAt s n cap).2.calm) := by
  rw [readAt, readAt, refresh_calm n hreads]
  cases refresh s n with
  | mk ok s' => cases ok <;> rfl

section Cut

variable {base : UInt32} {b : Block} {d : Drive} {m : Nat} (hcut : CutAfter m d) (hserves : Serves d base)
include hcut hserves

/-- Whether all eight sectors are stored -/
theorem writeSectors_fst_of_cut : (writeSectors base b (List.finRange 8) d).1 = decide (8 ≤ m) := by
  obtain ⟨-, -, hres, -⟩ := writeSectors_cut base b (List.finRange 8) (List.nodup_finRange 8) m d hcut
    fun i _ => hserves i
  rw [hres, List.length_finRange]

/-- If they are, it is as on a drive that works. -/
theorem writeSectors_of_cut (hm : 8 ≤ m) :
    (writeSectors base b (List.finRange 8) (calm d)) = (true, calm (writeSectors base b (List.finRange 8) d).2) ∧
    CutAfter (m - 8) (writeSectors base b (List.finRange 8) d).2 := by
  obtain ⟨-, -, -, hleft⟩ := writeSectors_cut base b (List.finRange 8) (List.nodup_finRange 8) m d hcut
    fun i _ => hserves i
  rw [List.length_finRange] at hleft
  refine ⟨Prod.ext (Serves.writeSectors_ok (d := calm d) hserves rfl b) ?_, hleft hm⟩
  exact (calm_writeSectors_cut base b (List.finRange 8) m d hcut (by simpa using hm) fun i _ => hserves i).symm

end Cut

/-- A flush with enough sectors left -/
theorem persist_of_cut {s : State} {m : Nat} (hb : s.diskBacked = true) (hcut : CutAfter m s.drive)
    (hserves : Serves s.drive vfsMetaLba) (hm : 8 ≤ m) :
    persist s.calm = (0, (persist s).2.calm) ∧ (persist s).1 = 0 ∧ CutAfter (m - 8) (persist s).2.drive := by
  obtain ⟨b, hbytes⟩ : ∃ b, b = encodeMeta (s.generation + 1) s.records := ⟨_, rfl⟩
  have hfst : (writeSectors vfsMetaLba b (List.finRange 8) s.drive).1 = true := by
    rw [writeSectors_fst_of_cut hcut hserves]
    exact decide_eq_true hm
  obtain ⟨hsame, hleft⟩ := writeSectors_of_cut (b := b) hcut hserves hm
  have hflush : persist s = (0, { s with
      generation := s.generation + 1
      drive := (writeSectors vfsMetaLba b (List.finRange 8) s.drive).2
      flushed := true }) := by
    unfold persist
    rw [if_pos hb]
    dsimp only
    rw [← hbytes, hfst]
    rfl
  have hcalm : persist s.calm = (0, { s with
      generation := s.generation + 1
      drive := (writeSectors vfsMetaLba b (List.finRange 8) (calm s.drive)).2
      flushed := true }) := by
    unfold persist
    rw [if_pos (show s.calm.diskBacked = true from hb)]
    dsimp only [State.calm]
    rw [← hbytes, hsame]
    rfl
  refine ⟨?_, by rw [hflush], by rw [hflush]; exact hleft⟩
  rw [hcalm, hflush, hsame]
  rfl

/-- A flush with fewer -/
theorem persist_fst_of_cut {s : State} {m : Nat} (hb : s.diskBacked = true) (hcut : CutAfter m s.drive)
    (hserves : Serves s.drive vfsMetaLba) (hm : ¬ 8 ≤ m) : (persist s).1 = -1 := by
  have hfst := writeSectors_fst_of_cut (b := encodeMeta (s.generation + 1) s.records) hcut hserves
  unfold persist
  rw [if_pos hb]
  dsimp only
  rw [hfst, decide_eq_false hm]
  rfl

/-! ## What a power failure may leave of a call -/

/-- The bytes `c` with `d` written over them from `pos` on -/
def overlaid (c : List UInt8) (pos : Nat) (d : List UInt8) : List UInt8 :=
  c.take pos ++ (d ++ c.drop (pos + d.length))

namespace CachedTree

open Classical in
/-- What the cache has of a file with these bytes -/
noncomputable def cached (C : CachedTree) (i : Slot) (b : List UInt8) : List UInt8 :=
  if C.warm i then b else List.replicate b.length 0

/-- The bytes of a file of the old length after `j` sectors of a write were stored -/
noncomputable def tornBytes (C : CachedTree) (i : Slot) (b d : List UInt8) (append : Bool) (j : Nat) :
    List UInt8 :=
  ((overlaid (C.cached i b) (if append then b.length else 0) d).take b.length).take (512 * j) ++ b.drop (512 * j)

/-- The trees that a power failure inside the call may leave -/
inductive Interrupted : CachedTree → Op → Tree → Prop
  | before (C : CachedTree) (op : Op) : Interrupted C op C.tree
  | after (C : CachedTree) (op : Op) : Interrupted C op (C.call op).2.tree
  | torn {C : CachedTree} {p : PathArg} {d : List UInt8} {append : Bool} {i : Slot} {b : FileBytes} (j : Nat)
      (h : C.tree.get p = some (i, .file b)) :
      Interrupted C (.write p d append) (C.tree.write p (C.tornBytes i b.val d append j) false).2
  /-- after the read and the touch, inside the write -/
  | copy {C : CachedTree} {src dst : PathArg} {b : List UInt8} {T : Tree} (hread : (C.read src 4096).1 = some b)
      (htouch : (C.tree.touch dst).1 = 0)
      (h : Interrupted ((C.read src 4096).2.keep (C.tree.touch dst)).2 (.write dst b false) T) :
      Interrupted C (.copy src dst) T
  /-- inside the copy, or after it -/
  | move {C : CachedTree} {src dst : PathArg} {T : Tree} (h : Interrupted C (.copy src dst) T) :
      Interrupted C (.move src dst) T

end CachedTree

/-- The state stores the cached tree, and its drive the next `m` sectors. -/
structure Dying (m : Nat) (s : State) (C : CachedTree) : Prop where
  stores : Stores s.calm C
  reads : s.drive.readScript = []
  cut : CutAfter m s.drive

/-- How a call can end on such a drive: as on one that works, or with -1 and one of these trees on the medium -/
inductive Ends (P : Tree → Prop) : Except Fault (Int × State) → Int × CachedTree → Prop
  | done {m : Nat} {s' : State} {y : Int × CachedTree} (h : Dying m s' y.2) : Ends P (.ok (y.1, s')) y
  | cut {s' : State} {T : Tree} {y : Int × CachedTree} (h : OnMedium s'.drive T) (hT : P T) : Ends P (.ok (-1, s')) y

theorem Dying.ends {P : Tree → Prop} {m : Nat} {s' : State} {C : CachedTree} (h : Dying m s' C) (r : Int) :
    Ends P (.ok (r, s')) (r, C) :=
  .done (y := (r, C)) h

theorem Ends.mono {P Q : Tree → Prop} {x : Except Fault (Int × State)} {y : Int × CachedTree} (h : Ends P x y)
    (hPQ : ∀ T, P T → Q T) : Ends Q x y := by
  cases h with
  | done h => exact .done h
  | cut h hT => exact .cut h (hPQ _ hT)

theorem Stores.dying {s : State} {C : CachedTree} (h : Stores s C) (m : Nat) : Dying m (s.cut m) C := by
  refine ⟨?_, rfl, cutAfter_cut s m⟩
  rw [show (s.cut m).calm = s.calm from rfl, calm_of_healthy h.healthy]
  exact h

/-- **A flush that may be cut**, of a table that differs from the one on the medium in an edit -/
theorem ends_persist {s : State} {m : Nat} {g : UInt32} {t : Table} {T : Tree} {y : Int × CachedTree}
    (hb : s.diskBacked = true) (hreads : s.drive.readScript = []) (hcut : CutAfter m s.drive)
    (hst : stored s.drive = some (g, t)) (he : Edit t s.records) (hT : OnMedium s.drive T)
    (hy : Answers (.ok (persist s.calm)) y) :
    Ends (fun T' => T' = T ∨ T' = y.2.tree) (.ok (persist s)) y := by
  have hserves : Serves s.drive vfsMetaLba := Serves.of_stored hst
  obtain ⟨s', heq, h'⟩ := hy
  by_cases hm : 8 ≤ m
  · obtain ⟨hcalm, hfst, hleft⟩ := persist_of_cut hb hcut hserves hm
    rw [hcalm] at heq
    obtain ⟨hcode, rfl⟩ := Prod.mk.inj (Except.ok.inj heq)
    rw [show persist s = (y.1, (persist s).2) from Prod.ext (hfst.trans hcode) rfl]
    refine .done ⟨h', ?_, hleft⟩
    rw [persist_readScript]
    exact hreads
  · rw [show persist s = (-1, (persist s).2) from Prod.ext (persist_fst_of_cut hb hcut hserves hm) rfl]
    obtain ⟨g', u, hu, htorn⟩ := stored_persist_cut hb hst hcut
    rcases usedRecords_torn he htorn with hold | hnew
    · refine .cut (hT.congr (persist_sectorCount s) hu ?_ fun i => blockAt_persist s i) (Or.inl rfl)
      intro g₁ t₁ ht
      rw [hst] at ht
      rw [hold, (Prod.mk.inj (Option.some.inj ht)).2]
    · have hs' : s' = (persist s.calm).2 := (congrArg Prod.snd (Except.ok.inj heq)).symm
      refine .cut (h'.onMedium.congr ?_ hu ?_ fun i => ?_) (Or.inr rfl)
      · rw [hs', persist_sectorCount, persist_sectorCount]
        rfl
      · intro g₁ t₁ ht
        rw [h'.synced.2, hs', persist_records] at ht
        rw [hnew, ← (Prod.mk.inj (Option.some.inj ht)).2]
        rfl
      · rw [hs', blockAt_persist, blockAt_persist]
        rfl

/-! ## The bytes of a torn write -/

theorem getElem?_row (c : Block) (size x : Nat) : ((List.ofFn c).take size)[x]?
    = if hx : x < size ∧ x < 4096 then some (c ⟨x, hx.2⟩) else none := by
  rw [List.getElem?_take]
  split
  · rw [List.getElem?_ofFn]
    simp [*]
  · rw [dif_neg fun hx => by omega]

/-- A write to a row of the cache, as far as the old length -/
theorem take_blit_overlaid (c : Block) {pos size : Nat} (hpos : pos ≤ size) (hsize : size ≤ 4096) (d : List UInt8) :
    (List.ofFn (blit c pos (d.take (vfsContentMax - pos)))).take size
      = (overlaid ((List.ofFn c).take size) pos d).take size := by
  have hmax : vfsContentMax = 4096 := rfl
  have hcut : (d.take (vfsContentMax - pos)).length = min (4096 - pos) d.length := List.length_take ..
  have hlen : (((List.ofFn c).take size).take pos).length = pos := by
    rw [List.length_take, List.length_take, List.length_ofFn]
    omega
  apply List.ext_getElem?
  intro x
  rw [getElem?_row, List.getElem?_take]
  by_cases hx : x < size
  · have hx' : x < size ∧ x < 4096 := by omega
    rw [dif_pos hx', if_pos hx, overlaid, blit]
    -- before the data, in them, behind them
    by_cases hlow : x < pos
    · rw [if_neg (by dsimp only; omega), List.getElem?_append_left (by omega), List.getElem?_take_of_lt hlow,
        getElem?_row, dif_pos hx']
    · rw [List.getElem?_append_right (by omega), hlen]
      by_cases hin : x - pos < d.length
      · have hdata : x - pos < (d.take (vfsContentMax - pos)).length := by omega
        rw [List.getElem?_append_left hin, if_pos (by dsimp only; omega), List.getD_eq_getElem _ _ hdata,
          List.getElem_take, List.getElem?_eq_getElem hin]
      · rw [List.getElem?_append_right (by omega), List.getElem?_drop, if_neg (by dsimp only; omega),
          show pos + d.length + (x - pos - d.length) = x by omega, getElem?_row, dif_pos hx']
  · rw [dif_neg fun hx' => hx hx'.1, if_neg hx]

/-- The first sectors of one row and the others of another -/
theorem take_ofFn_cut (f g : Block) (j size : Nat) :
    (List.ofFn fun k : Fin 4096 => if k.val / 512 < j then f k else g k).take size
      = ((List.ofFn f).take size).take (512 * j) ++ ((List.ofFn g).take size).drop (512 * j) := by
  have hlen : (((List.ofFn f).take size).take (512 * j)).length = min (512 * j) (min size 4096) := by
    rw [List.length_take, List.length_take, List.length_ofFn]
  have hlen' : (((List.ofFn g).take size).drop (512 * j)).length = min size 4096 - 512 * j := by
    rw [List.length_drop, List.length_take, List.length_ofFn]
  apply List.ext_getElem?
  intro x
  have hdiv : x / 512 < j ↔ x < 512 * j := by omega
  rw [getElem?_row]
  by_cases hx : x < size ∧ x < 4096
  · rw [dif_pos hx]
    by_cases hj : x < 512 * j
    · rw [if_pos (hdiv.mpr hj), List.getElem?_append_left (by omega), List.getElem?_take_of_lt hj, getElem?_row,
        dif_pos hx]
    · rw [if_neg (mt hdiv.mp hj), List.getElem?_append_right (by omega), List.getElem?_drop, hlen,
        show 512 * j + (x - min (512 * j) (min size 4096)) = x by omega, getElem?_row, dif_pos hx]
  · rw [dif_neg hx, List.getElem?_eq_none]
    rw [List.length_append, hlen, hlen']
    omega

/-- The cache of a file -/
theorem Stores.take_contents {s : State} {C : CachedTree} (h : Stores s C) {n : Slot} (hw : Writable s.records n) :
    (List.ofFn (s.contents n)).take (s.records n).size.toNat = C.cached n (bytesOf (view s) n).val := by
  have hsize : (s.records n).size.toNat ≤ 4096 := h.wf.size n hw.used
  rw [CachedTree.cached]
  split
  · rename_i hwarm
    rw [bytesOf_val]
    exact (take_ofFn_eq_iff _ _ _).mpr (h.warm n hwarm hw)
  · rename_i hcold
    have hlen : (bytesOf (view s) n).val.length = (s.records n).size.toNat := by
      rw [bytesOf_val, List.length_take, List.length_ofFn]
      exact Nat.min_eq_left hsize
    rw [hlen, h.cold n hcold, List.ofFn_const, List.take_replicate, Nat.min_eq_left hsize]

/-- **Some data sectors of a file are new**, and the metadata are old: the file was written with the bytes that are
on the medium now. -/
theorem Stores.rewritten {s : State} {C : CachedTree} (h : Stores s C) {p : PathArg} {n : Slot}
    (hn : fileAt s.records p.chars = some n) {e : Drive} (hc : e.sectorCount = s.drive.sectorCount)
    (hst : stored e = stored s.drive)
    (hrows : ∀ i, i ≠ n → blockAt e (slotLba i) = blockAt s.drive (slotLba i)) :
    OnMedium e (C.tree.write p ((List.ofFn (blockAt e (slotLba n))).take (s.records n).size.toNat) false).2 := by
  have hw := h.wf.writable_of_fileAt hn
  have hsize : (s.records n).size.toNat ≤ vfsContentMax := h.wf.size n hw.used
  obtain ⟨b, hb⟩ : ∃ b, b = (List.ofFn (blockAt e (slotLba n))).take (s.records n).size.toNat := ⟨_, rfl⟩
  have hlen : b.length = (s.records n).size.toNat := by
    rw [hb, List.length_take, List.length_ofFn]
    exact Nat.min_eq_left hsize
  have hsame : writtenSize 0 b = (s.records n).size := by
    apply UInt32.toNat_inj.mp
    rw [toNat_writtenSize (Nat.zero_le _), hlen, Nat.sub_zero, Nat.min_eq_left hsize, Nat.zero_add]
  rw [← hb]
  obtain ⟨v, hv, hT⟩ := h.tree.agrees_write p b false
  rw [h.tree.wf.write_eq, show (view s).records = s.records from rfl, hn] at hv
  dsimp only at hv
  rw [writeAt_eq, if_neg (by simp [view]), persist_volatile rfl] at hv
  obtain ⟨-, rfl⟩ := Prod.mk.inj (Except.ok.inj hv)
  have hrecords : (written (view s) n (writePos s.records n false) b).records = s.records := by
    rw [show writePos s.records n false = 0 from rfl, written_records, hsame]
    exact Function.update_eq_self n s.records
  refine ⟨?_, _, _, hst.trans h.synced.2, hT.congr rfl hrecords.symm fun i _ => ?_⟩
  · rw [Roomy, hc]
    exact h.roomy
  · show (List.ofFn (blockAt e (slotLba i))).take _ = _
    rcases eq_or_ne i n with rfl | hne
    · have hstored := take_written (view s) i (Nat.zero_le vfsContentMax) b
      rw [List.take_zero, List.nil_append, Nat.sub_zero, List.take_of_length_le (hlen.le.trans hsize)] at hstored
      refine Eq.trans ?_ hstored.symm
      rw [show writePos s.records i false = 0 from rfl] at hrecords
      show (List.ofFn (blockAt e (slotLba i))).take
        ((written (view s) i 0 b).records i).size.toNat = b
      rw [hrecords, hb]
    · rw [hrows i hne]
      show _ = (List.ofFn ((written (view s) n (writePos s.records n false) b).contents i)).take _
      rw [written_contents, Function.update_of_ne hne]
      rfl

/-- The drive while a file is written: some of its data sectors are new. -/
def dataCut (s : State) (n : Slot) (pos : Nat) (d : List UInt8) : Drive :=
  (writeSectors (slotLba n) ((written s n pos d).contents n) (List.finRange 8) s.drive).2

section WriteAt

variable {s : State} {n : Slot} {pos : Nat} {d : List UInt8} {e : Drive} (hb : s.diskBacked = true)
  (hlba : (s.records n).dataLba = slotLba n)
include hb hlba

/-- A write whose data sectors are stored goes on with the flush … -/
theorem writeAt_of_stored
    (he : writeSectors (slotLba n) ((written s n pos d).contents n) (List.finRange 8) s.drive = (true, e)) :
    writeAt s n pos d = persist { written s n pos d with drive := e } := by
  rw [writeAt_eq, if_pos hb, hlba, he]

/-- … and else returns -1. -/
theorem writeAt_of_refused
    (he : writeSectors (slotLba n) ((written s n pos d).contents n) (List.finRange 8) s.drive = (false, e)) :
    writeAt s n pos d = (-1, { written s n pos d with drive := e }) := by
  rw [writeAt_eq, if_pos hb, hlba, he]

end WriteAt

section OneCall

variable {m : Nat} {s : State} {C : CachedTree} (h : Dying m s C)
include h

theorem Dying.wf : Wf s.records := h.stores.wf

theorem Dying.stored : stored s.drive = some (s.generation, s.records) := h.stores.synced.2

theorem Dying.onMedium : OnMedium s.drive C.tree :=
  h.stores.onMedium.congr rfl h.stored
    (fun g t ht => by rw [(Prod.mk.inj (Option.some.inj (h.stored.symm.trans ht))).2]) fun _ => rfl

/-- A call that writes nothing -/
theorem Dying.nothing {P : Tree → Prop} {r : Int} {y : Int × CachedTree} (hy : Answers (.ok (r, s.calm)) y) :
    Ends P (.ok (r, s)) y := by
  obtain ⟨s', heq, h'⟩ := hy
  obtain ⟨rfl, rfl⟩ := Prod.mk.inj (Except.ok.inj heq)
  exact .done ⟨h', h.reads, h.cut⟩

/-- A call that edits a record and flushes: all or nothing -/
theorem Dying.flushed {k : Slot} {r : VfsRecord} {y : Int × CachedTree}
    (he : Edit s.records (Function.update s.records k r))
    (hy : Answers (.ok (persist (s.calm.setRecord k r))) y) :
    Ends (fun T => T = C.tree ∨ T = y.2.tree) (.ok (persist (s.setRecord k r))) y :=
  ends_persist (s := s.setRecord k r) h.stores.healthy.backed h.reads h.cut h.stored he h.onMedium hy

theorem Dying.create (p : PathArg) (type : VfsType) :
    Ends (fun T => T = C.tree ∨ T = (C.tree.create p type.emptyNode).2) (create s p.chars type)
      (C.keep (C.tree.create p type.emptyNode)) := by
  have hy := h.stores.create p type
  rw [h.stores.wf.create_eq, show s.calm.records = s.records from rfl] at hy
  rw [h.wf.create_eq]
  cases ht : createTarget s.records p.chars with
  | none =>
    rw [ht] at hy
    exact h.nothing hy
  | some x =>
    obtain ⟨j, k, x⟩ := x
    obtain ⟨q, -, hc⟩ := creatable_of_createTarget ht
    rw [ht] at hy
    exact h.flushed (.create type hc) hy

theorem Dying.touch (p : PathArg) :
    Ends (fun T => T = C.tree ∨ T = (C.tree.touch p).2) (vfsTouch s p.chars) (C.keep (C.tree.touch p)) := by
  have hy := h.stores.touch p
  have hget : (C.tree.get p).isSome = (lookup s.records p.chars).isSome := by
    rw [h.stores.tree.get_eq, Option.isSome_map]
    rfl
  rw [h.stores.wf.touch_eq, show s.calm.records = s.records from rfl] at hy
  rw [h.wf.touch_eq]
  split
  · rename_i hl
    rw [if_pos hl] at hy
    exact h.nothing hy
  · rename_i hl
    rw [Tree.touch, hget, if_neg hl]
    exact h.create p .file

theorem Dying.rmdir (p : PathArg) :
    Ends (fun T => T = C.tree ∨ T = (C.tree.rmdir p).2) (vfsRmdir s p.chars) (C.keep (C.tree.rmdir p)) := by
  have hy := h.stores.rmdir p
  rw [h.stores.wf.rmdir_eq, show s.calm.records = s.records from rfl] at hy
  rw [h.wf.rmdir_eq]
  cases hn : rmdirTarget s.records p.chars with
  | none =>
    rw [hn] at hy
    exact h.nothing hy
  | some n =>
    rw [hn] at hy
    exact h.flushed (.clear (h.wf.clearable_of_rmdirTarget hn)) hy

theorem Dying.remove (p : PathArg) :
    Ends (fun T => T = C.tree ∨ T = (C.tree.remove p).2) (vfsRemove s p.chars) (C.keep (C.tree.remove p)) := by
  have hy := h.stores.remove p
  rw [h.stores.wf.remove_eq, show s.calm.records = s.records from rfl] at hy
  rw [h.wf.remove_eq]
  cases hn : fileAt s.records p.chars with
  | none =>
    rw [hn] at hy
    exact h.nothing hy
  | some n =>
    rw [hn] at hy
    exact h.flushed (.clear (h.wf.clearable_of_writable (h.wf.writable_of_fileAt hn))) hy

/-- Reads write nothing, so they end. -/
theorem Dying.read (p : PathArg) (cap : UInt32) :
    ∃ s', vfsRead s p.chars cap = .ok ((C.read p cap).1, s') ∧ Dying m s' (C.read p cap).2 := by
  obtain ⟨s₁, heq, h₁⟩ := h.stores.read p cap
  rw [h.stores.wf.read_eq, show s.calm.records = s.records from rfl] at heq
  rw [h.wf.read_eq]
  cases hn : fileAt s.records p.chars with
  | none =>
    rw [hn] at heq
    obtain ⟨hfst, rfl⟩ := Prod.mk.inj (Except.ok.inj heq)
    exact ⟨s, by rw [← hfst], h₁, h.reads, h.cut⟩
  | some n =>
    rw [hn] at heq
    dsimp only at heq ⊢
    rw [readAt_calm n cap h.reads] at heq
    obtain ⟨hfst, rfl⟩ := Prod.mk.inj (Except.ok.inj heq)
    have hdrive : (readAt s n cap).2 = (refresh s n).2 := readAt_snd s n cap
    refine ⟨(readAt s n cap).2, by rw [← hfst], h₁, ?_, ?_⟩
    · rw [hdrive]
      exact refresh_readScript_of_nil n h.reads
    · obtain ⟨rest, hrest⟩ := h.cut
      exact ⟨rest, by rw [hdrive, (refresh_frame s n).2.2.2, hrest]⟩

/-- The bytes such a drive has for the file are torn. -/
theorem Dying.tornBytes_eq {n : Slot} (hw : Writable s.records n) (d : List UInt8) (append : Bool) :
    (List.ofFn (blockAt (dataCut s n (writePos s.records n append) d) (slotLba n))).take (s.records n).size.toNat
      = C.tornBytes n (bytesOf (view s) n).val d append m := by
  have hsize : (s.records n).size.toNat ≤ 4096 := h.wf.size n hw.used
  have hlen : (bytesOf (view s) n).val.length = (s.records n).size.toNat := by
    rw [bytesOf_val, List.length_take, List.length_ofFn]
    exact Nat.min_eq_left hsize
  have hpos : writePos s.records n append = if append then (bytesOf (view s) n).val.length else 0 := by
    rw [hlen]
    rfl
  have hle : writePos s.records n append ≤ (s.records n).size.toNat := by
    rw [hpos, hlen]
    split <;> omega
  have hrow : blockAt (dataCut s n (writePos s.records n append) d) (slotLba n)
      = fun k => if k.val / 512 < m then (written s n (writePos s.records n append) d).contents n k
          else blockAt s.drive (slotLba n) k :=
    funext fun k => blockAt_cut h.cut (h.stores.serves n) k
  have hcached : (List.ofFn (s.contents n)).take (s.records n).size.toNat = C.cached n (bytesOf (view s) n).val :=
    h.stores.take_contents hw
  rw [hrow, take_ofFn_cut, written_contents, Function.update_self, take_blit_overlaid _ hle hsize, hcached, hpos,
    CachedTree.tornBytes, hlen, bytesOf_val]
  rfl

/-- A write can be cut in its data and in its flush. -/
theorem Dying.write (p : PathArg) (d : List UInt8) (append : Bool) :
    Ends (C.Interrupted (.write p d append)) (vfsWrite s p.chars d append) (C.write p d append) := by
  have hy := h.stores.write p d append
  rw [h.stores.wf.write_eq, show s.calm.records = s.records from rfl] at hy
  rw [h.wf.write_eq]
  cases hn : fileAt s.records p.chars with
  | none =>
    rw [hn] at hy
    exact h.nothing hy
  | some n =>
    rw [hn] at hy
    dsimp only at hy ⊢
    have hw := h.wf.writable_of_fileAt hn
    have hb : s.diskBacked = true := h.stores.healthy.backed
    have hlba : (s.records n).dataLba = slotLba n := h.stores.dataLba hw
    have hserves : Serves s.drive (slotLba n) := h.stores.serves n
    have hget : C.tree.get p = some (n, .file (bytesOf (view s) n)) := h.stores.tree.get_file hn
    obtain ⟨pos, hpos⟩ : ∃ pos, pos = writePos s.records n append := ⟨_, rfl⟩
    rw [← hpos] at hy ⊢
    have hst : Vfs.stored (dataCut s n pos d) = Vfs.stored s.drive := stored_writeSectors_slot _ _ _
    have htorn : OnMedium (dataCut s n pos d)
        (C.tree.write p (C.tornBytes n (bytesOf (view s) n).val d append m) false).2 := by
      rw [← h.tornBytes_eq hw, ← hpos]
      refine h.stores.rewritten hn (writeSectors_sectorCount _ _ _ _) hst fun i hi => ?_
      exact blockAt_congr fun j => writeSectors_sectors_of_ne _ _ _ (fun k _ => slot_ne_slot hi j k) _
    have hfst := writeSectors_fst_of_cut (b := (written s n pos d).contents n) h.cut hserves
    by_cases hm : 8 ≤ m
    · obtain ⟨hsame, hleft⟩ := writeSectors_of_cut (b := (written s n pos d).contents n) h.cut hserves hm
      rw [writeAt_of_stored hb hlba (Prod.ext (hfst.trans (decide_eq_true hm)) rfl)]
      rw [writeAt_of_stored (s := s.calm) hb hlba hsame] at hy
      have hsize := writtenSize_le (hpos ▸ h.wf.writePos_le hw append) d
      refine (ends_persist (s := { written s n pos d with drive := dataCut s n pos d }) hb ?_ hleft
        (hst.trans h.stored) (.resize hw hsize) htorn hy).mono ?_
      · show (dataCut s n pos d).readScript = []
        rw [dataCut, writeSectors_readScript]
        exact h.reads
      · rintro T (rfl | rfl)
        · exact .torn m hget
        · exact .after C (.write p d append)
    · rw [writeAt_of_refused hb hlba (Prod.ext (hfst.trans (decide_eq_false hm)) rfl)]
      exact .cut htorn (.torn m hget)

/-- A copy can be cut in its touch and in its write, and either way it gives up. -/
theorem Dying.copy (src dst : PathArg) :
    Ends (C.Interrupted (.copy src dst)) (vfsCopy s src.chars dst.chars) (C.copy src dst) := by
  obtain ⟨s₁, hread, h₁⟩ := h.read src 4096
  have htouch := h₁.touch dst
  rw [C.read_tree] at htouch
  rw [vfsCopy, hread, ok_bind, CachedTree.copy]
  cases hb : (C.read src 4096).1 with
  | none => exact h₁.ends (-1)
  | some b =>
    dsimp only
    generalize vfsTouch s₁ dst.chars = x at htouch ⊢
    cases htouch with
    | done h₂ =>
      rw [ok_bind]
      dsimp only
      by_cases hr : ((C.read src 4096).2.keep (C.tree.touch dst)).1 ≠ 0
      · rw [if_pos hr, if_pos hr]
        exact h₂.ends (-1)
      · have hwrite := h₂.write dst b false
        rw [if_neg hr, if_neg hr]
        generalize vfsWrite _ dst.chars b false = x at hwrite ⊢
        cases hwrite with
        | done h₃ =>
          rw [ok_bind]
          dsimp only
          split
          · exact h₃.ends (-1)
          · exact h₃.ends 0
        | cut hT hcut => exact .cut hT (.copy hb (not_not.mp hr) hcut)
    | cut hT hcut =>
      refine .cut hT ?_
      rcases hcut with rfl | rfl
      · exact .before C _
      · rcases (Tree.lawful_touch (T := C.tree) dst).code with hrefused | hdone
        · rw [show (C.tree.touch dst).2 = C.tree by rw [hrefused]]
          exact .before C _
        · exact .copy hb hdone (.before ((C.read src 4096).2.keep (C.tree.touch dst)).2 _)

/-- A move can be cut in its copy and in its remove. -/
theorem Dying.move (src dst : PathArg) :
    Ends (C.Interrupted (.move src dst)) (vfsMove s src.chars dst.chars) (C.move src dst) := by
  have hcopy := h.copy src dst
  rw [vfsMove]
  generalize vfsCopy s src.chars dst.chars = x at hcopy ⊢
  cases hcopy with
  | done h₁ =>
    rw [ok_bind, CachedTree.move]
    dsimp only
    by_cases hr : (C.copy src dst).1 ≠ 0
    · rw [if_pos hr, if_pos hr]
      exact h₁.ends (-1)
    · rw [if_neg hr, if_neg hr]
      refine (h₁.remove src).mono ?_
      rintro T (rfl | rfl)
      · exact .move (.after C (.copy src dst))
      · have hafter := CachedTree.Interrupted.after C (.move src dst)
        rwa [show (C.call (.move src dst)).2 = ((C.copy src dst).2.keep ((C.copy src dst).2.tree.remove src)).2 by
          show (C.move src dst).2 = _
          rw [CachedTree.move, if_neg hr]] at hafter
  | cut hT hcut => exact .cut hT (.move hcut)

/-- **One call on a drive whose power fails**: it does not fault, and the medium stores one of the trees. -/
theorem Dying.call (op : Op) :
    ∃ r s' T, step s op = .ok (r, s') ∧ OnMedium s'.drive T ∧ C.Interrupted op T := by
  have hends : ∀ {P : Tree → Prop} {x : Except Fault (Int × State)} {y : Int × CachedTree}, Ends P x y →
      (∀ T, P T → C.Interrupted op T) → C.Interrupted op y.2.tree →
      ∃ r s' T, (x >>= fun a => pure (a.map Reply.code id)) = .ok (r, s') ∧ OnMedium s'.drive T ∧
        C.Interrupted op T := by
    intro P x y hx hP hy
    cases hx with
    | @done m' s' y h' => exact ⟨_, s', _, reply_eq_ok_iff.mpr ⟨y.1, rfl, rfl⟩, h'.onMedium, hy⟩
    | @cut s' T y hT hcut => exact ⟨_, s', T, reply_eq_ok_iff.mpr ⟨-1, rfl, rfl⟩, hT, hP T hcut⟩
  have hedit : ∀ {T' : Tree}, C.Interrupted op T' → ∀ T, T = C.tree ∨ T = T' → C.Interrupted op T := by
    rintro T' hT' T (rfl | rfl)
    · exact .before C op
    · exact hT'
  have hafter := CachedTree.Interrupted.after C op
  cases op with
  | mkdir p => exact hends (h.create p .directory) (hedit hafter) hafter
  | rmdir p => exact hends (h.rmdir p) (hedit hafter) hafter
  | touch p => exact hends (h.touch p) (hedit hafter) hafter
  | remove p => exact hends (h.remove p) (hedit hafter) hafter
  | write p d append => exact hends (h.write p d append) (fun _ => id) hafter
  | copy src dst => exact hends (h.copy src dst) (fun _ => id) hafter
  | move src dst => exact hends (h.move src dst) (fun _ => id) hafter
  | read p cap =>
    obtain ⟨s', hread, h'⟩ := h.read p cap
    exact ⟨_, s', _, reply_eq_ok_iff.mpr ⟨_, hread, rfl⟩, h'.onMedium, hafter⟩
  | list p max =>
    have hlist : vfsList s p.chars max = .ok (C.tree.list p max) := h.stores.tree.list_eq p max
    exact ⟨_, s, _, by rw [Vfs.step, hlist]; rfl, h.onMedium, hafter⟩
  | stat p =>
    have hstat : vfsStatPath s p.chars = .ok (C.tree.stat p) := h.stores.tree.stat_eq p
    exact ⟨_, s, _, by rw [Vfs.step, hstat]; rfl, h.onMedium, hafter⟩

end OneCall

/-! ## What no power failure touches -/

namespace CachedTree

variable {C : CachedTree}

theorem write_frame (p : PathArg) (d : List UInt8) (append : Bool) {q : List (List UInt8)}
    (hq : canon p.chars ≠ some q) : (C.write p d append).2.tree.entry q = C.tree.entry q := by
  have hwrite : ∀ d' append', (C.tree.write p d' append').2.entry q = C.tree.entry q := fun d' append' =>
    (Tree.lawful_write p d' append').frame q (by simpa using hq)
  rw [write]
  split
  · dsimp only [writeTree]
    split
    · exact hwrite _ false
    · exact hwrite d append
  · rfl

theorem call_frame (op : Op) {q : List (List UInt8)} (hq : ∀ p ∈ op.targets, canon p.chars ≠ some q) :
    (C.call op).2.tree.entry q = C.tree.entry q := by
  cases op with
  | mkdir p => exact (Tree.lawful_create p _).frame q hq
  | rmdir p => exact (Tree.lawful_rmdir p).frame q hq
  | touch p => exact (Tree.lawful_touch p).frame q hq
  | remove p => exact (Tree.lawful_remove p).frame q hq
  | write p d append => exact C.write_frame p d append (hq p List.mem_cons_self)
  | copy src dst =>
    show (C.copy src dst).2.tree.entry q = _
    rw [(C.copy_tree src dst).2]
    exact (Tree.lawful_copy src dst).frame q hq
  | move src dst =>
    show (C.move src dst).2.tree.entry q = _
    rw [(C.move_tree src dst).2]
    exact (Tree.lawful_move src dst).frame q hq
  | read p cap =>
    show (C.read p cap).2.tree.entry q = _
    rw [C.read_tree]
  | list p max => rfl
  | stat p => rfl

/-- Paths the call does not name keep what they have. -/
theorem Interrupted.frame {op : Op} {T : Tree} (h : C.Interrupted op T) {q : List (List UInt8)}
    (hq : ∀ p ∈ op.targets, canon p.chars ≠ some q) : T.entry q = C.tree.entry q := by
  induction h with
  | before C op => rfl
  | after C op => exact C.call_frame op hq
  | torn j hget => exact (Tree.lawful_write _ _ false).frame q hq
  | copy hread htouch _ ih => exact (ih hq).trans ((Tree.lawful_touch _).frame q hq)
  | move _ ih => exact ih fun p hp => hq p (List.mem_cons_of_mem _ hp)

end CachedTree

/-- Every call but `write`, `copy` and `move` -/
def Op.Atomic : Op → Prop
  | .write .. | .copy .. | .move .. => False
  | _ => True

namespace CachedTree

variable {C : CachedTree}

theorem Interrupted.atomic {op : Op} {T : Tree} (h : C.Interrupted op T) (hop : op.Atomic) :
    T = C.tree ∨ T = (C.call op).2.tree := by
  cases h with
  | before => exact Or.inl rfl
  | after => exact Or.inr rfl
  | torn => exact hop.elim
  | copy => exact hop.elim
  | move => exact hop.elim

theorem tornBytes_of_warm {i : Slot} (hwarm : C.warm i) (b d : List UInt8) (j : Nat) :
    C.tornBytes i b d true j = b := by
  rw [tornBytes, cached, if_pos hwarm, if_pos rfl, overlaid, List.take_length, List.take_left,
    List.take_append_drop]

/-- **An append to a warm file is atomic**: the sectors it rewrites first hold what they held. -/
theorem Interrupted.append_of_warm {p : PathArg} {d : List UInt8} {i : Slot} {b : FileBytes} {T : Tree}
    (h : C.Interrupted (.write p d true) T) (hget : C.tree.get p = some (i, .file b)) (hwarm : C.warm i) :
    T = C.tree ∨ T = (C.call (.write p d true)).2.tree := by
  cases h with
  | before => exact Or.inl rfl
  | after => exact Or.inr rfl
  | @torn _ _ _ _ i' b' j hget' =>
    obtain ⟨rfl, hnode⟩ := Prod.mk.inj (Option.some.inj (hget.symm.trans hget'))
    cases hnode
    left
    rw [tornBytes_of_warm hwarm]
    obtain ⟨hT, -⟩ | ⟨c, i₁, b₁, T', hp, hentry, hT, hT'⟩ := C.tree.write_cases p b.val false
    · rw [hT]
    · rw [Tree.get, hp, Option.bind_some, hentry] at hget
      obtain ⟨rfl, hnode⟩ := Prod.mk.inj (Option.some.inj hget)
      cases hnode
      rw [hT]
      have hbytes : Tree.newBytes b b.val false = b :=
        Subtype.ext (List.take_of_length_le b.property)
      rw [hbytes, ← hentry, Function.update_eq_self] at hT'
      obtain ⟨entry, _, _, _, _⟩ := T'
      obtain ⟨⟨entry', _, _, _, _⟩, warm⟩ := C
      cases hT'
      rfl

end CachedTree

/-! ## Runs -/

/-- What can happen to a filesystem: a call, a reboot, or the power failing in a call, with `m` sectors stored -/
inductive PowerEvent
  | event (e : Event)
  | outage (op : Op) (m : Nat)

/-- After a power failure `vfs_init` runs over what is on the medium. -/
def powerStep (s : State) : PowerEvent → Except Fault (Reply × State)
  | .event e => eventStep s e
  | .outage op m => do
    let (_, s') ← step (s.cut m) op
    .ok (.code (mount (calm s'.drive)).1, (mount (calm s'.drive)).2)

/-- The same for the tree -/
inductive CachedTree.PowerStep (C : CachedTree) : PowerEvent → Reply → CachedTree → Prop
  | event (e : Event) : PowerStep C (.event e) (C.step e).1 (C.step e).2
  | outage {op : Op} {T : Tree} (m : Nat) (h : C.Interrupted op T) :
      PowerStep C (.outage op m) (.code 0) ⟨T, fun _ => False⟩

theorem Stores.outage {s : State} {C : CachedTree} (h : Stores s C) (op : Op) (m : Nat) :
    ∃ s' T, powerStep s (.outage op m) = .ok (.code 0, s') ∧ C.Interrupted op T ∧ Stores s' ⟨T, fun _ => False⟩ := by
  obtain ⟨r, s', T, hstep, hT, hcut⟩ := (h.dying m).call op
  obtain ⟨hrc, hs⟩ := hT.mount
  refine ⟨_, T, ?_, hcut, hs⟩
  rw [powerStep, hstep, ok_bind]
  dsimp only
  rw [hrc]

theorem Stores.powerStep {s : State} {C : CachedTree} (h : Stores s C) (e : PowerEvent) :
    ∃ r s' C', powerStep s e = .ok (r, s') ∧ C.PowerStep e r C' ∧ Stores s' C' := by
  cases e with
  | event e =>
    obtain ⟨s', hstep, h'⟩ := h.event e
    exact ⟨_, s', _, hstep, .event e, h'⟩
  | outage op m =>
    obtain ⟨s', T, hstep, hcut, h'⟩ := h.outage op m
    exact ⟨_, s', _, hstep, .outage m hcut, h'⟩

theorem Stores.powerRun {s : State} {C : CachedTree} (h : Stores s C) (es : List PowerEvent) : ∃ rs s' C',
    run Vfs.powerStep s es = .ok (rs, s') ∧ RefRuns CachedTree.PowerStep C es rs C' ∧ Stores s' C' := by
  apply run_simulates_some (R := Stores) _ es s C h
  intro s C e h
  exact h.powerStep e

/-- **Runs with power failures.** From the first boot on a working disk with room for every slot, every sequence of
calls, reboots and calls in which the power fails after any number of sectors faults nowhere and is a run of the
cached tree, in which each of these calls has left one of the trees that `Interrupted` allows. -/
theorem power_failures_refine_tree {d : Drive} (hd : Fresh d) (hw : Working d) (hroom : Roomy d)
    (es : List PowerEvent) : ∃ rs s C, run powerStep (mount d).2 es = .ok (rs, s) ∧
      RefRuns CachedTree.PowerStep .empty es rs C ∧ Stores s C :=
  (stores_mount hd hw hroom).powerRun es

/-- Power fails in the third data sector of a write. -/
theorem power_failures_refine_tree_write : ∃ rs s C,
    run powerStep (mount (blankDisk 65544)).2
      [.event (.call (.touch pathA)), .outage (.write pathA [77] false) 3] = .ok (rs, s) ∧
    RefRuns CachedTree.PowerStep .empty [.event (.call (.touch pathA)), .outage (.write pathA [77] false) 3] rs C ∧
    Stores s C :=
  power_failures_refine_tree (fresh_blankDisk 65544) working_65544 roomy_65544 _

/-- **What a power failure leaves alone.** After every such run, whatever call the power fails in and whenever: the
next mount returns 0, every path the call does not name has what it had, and a call other than `write`, `copy` and
`move`, and an append to a file that was read or written since the boot, has happened as a whole or not at all. -/
theorem power_failure_keeps {d : Drive} (hd : Fresh d) (hw : Working d) (hroom : Roomy d)
    (es : List PowerEvent) (op : Op) (m : Nat) : ∃ rs s C s' T,
      run powerStep (mount d).2 es = .ok (rs, s) ∧ Stores s C ∧
      powerStep s (.outage op m) = .ok (.code 0, s') ∧ Stores s' ⟨T, fun _ => False⟩ ∧
      (∀ q, (∀ p ∈ op.targets, canon p.chars ≠ some q) → T.entry q = C.tree.entry q) ∧
      (op.Atomic → T = C.tree ∨ T = (C.call op).2.tree) ∧
      (∀ p b i bytes, op = .write p b true → C.tree.get p = some (i, .file bytes) → C.warm i →
        T = C.tree ∨ T = (C.call op).2.tree) := by
  obtain ⟨rs, s, C, hrun, -, h⟩ := (stores_mount hd hw hroom).powerRun es
  obtain ⟨s', T, hstep, hcut, h'⟩ := h.outage op m
  refine ⟨rs, s, C, s', T, hrun, h, hstep, h', fun q hq => hcut.frame hq, hcut.atomic, ?_⟩
  rintro p b i bytes rfl hget hwarm
  exact hcut.append_of_warm hget hwarm

/-- The power fails in the removal of `/a/b`, after one sector: the file is there or it is not, and `/a` stays. -/
theorem power_failure_keeps_remove : ∃ rs s C s' T,
    run powerStep (mount (blankDisk 65544)).2
      [.event (.call (.mkdir pathA)), .event (.call (.touch pathAB))] = .ok (rs, s) ∧ Stores s C ∧
    powerStep s (.outage (.remove pathAB) 1) = .ok (.code 0, s') ∧ Stores s' ⟨T, fun _ => False⟩ ∧
    T.entry [[97]] = C.tree.entry [[97]] ∧ (T = C.tree ∨ T = (C.call (.remove pathAB)).2.tree) := by
  obtain ⟨rs, s, C, s', T, hrun, h, hstep, h', hframe, hatomic, -⟩ := power_failure_keeps (fresh_blankDisk 65544)
    working_65544 roomy_65544 [.event (.call (.mkdir pathA)), .event (.call (.touch pathAB))] (.remove pathAB) 1
  refine ⟨rs, s, C, s', T, hrun, h, hstep, h', hframe [[97]] ?_, hatomic trivial⟩
  intro p hp
  obtain rfl : p = pathAB := List.mem_singleton.mp hp
  decide

end MinOS.Vfs
