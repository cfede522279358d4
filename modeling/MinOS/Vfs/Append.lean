/-
# MinOS.Vfs.Append — when an append keeps what a file holds.

File bytes live twice: in the content cache and in the data sectors. A read refreshes the cache, a
write stores all eight sectors from it. An append stores all eight sectors too, but it does not refresh
first: the bytes before its offset are those of the cache. After a boot the cache is zero, so the first
append to a file destroys it unless something has brought the row up to date.

`RowStep` is what a call does to one row, read off the transfers it made: a row none of whose sectors
was transferred is as it was, a row that had a transfer agrees with the medium as far as the file goes.
With it `append_keeps_iff` says exactly which appends are safe.
-/
import MinOS.Vfs.Layout
import MinOS.Vfs.Remount

namespace MinOS.Vfs

open MinOS.Ata Machine

/-! ## Rows and sectors -/

/-- The first `size` bytes of the cached row are those on the medium. -/
def Coherent (s : State) (n : Slot) : Prop :=
  ∀ k : Fin 4096, k.val < (s.records n).size.toNat → s.contents n k = blockAt s.drive (slotLba n) k

/-- The address of a transfer -/
def transferLba : Transfer → UInt32
  | .read lba _ => lba
  | .write lba _ _ => lba

/-- The transfer is of a data sector of the slot. -/
def OnSlot (n : Slot) (x : Transfer) : Prop := ∃ i, transferLba x = lbaAdd (slotLba n) i

theorem not_onSlot_meta {n : Slot} {x : Transfer} {i : Fin 8} (hx : transferLba x = lbaAdd vfsMetaLba i) :
    ¬ OnSlot n x := by
  rintro ⟨j, hj⟩
  exact meta_ne_slot n i j (by rw [← hx, hj])

theorem eq_of_onSlot {m n : Slot} {x : Transfer} {i : Fin 8}
    (hx : transferLba x = lbaAdd (slotLba m) i) (h : OnSlot n x) : n = m := by
  obtain ⟨j, hj⟩ := h
  by_contra hne
  exact slot_ne_slot hne j i (by rw [← hj, hx])

/-- **What happens to the rows between two states**: a row without a transfer keeps its bytes, the row
of a file with one is coherent, and coherent rows stay so. -/
def RowStep (s s' : State) : Prop := ∃ tr, s'.drive.trace = s.drive.trace ++ tr ∧ ∀ n,
  ((∀ x ∈ tr, ¬ OnSlot n x) → s'.contents n = s.contents n) ∧
  ((∃ x ∈ tr, OnSlot n x) → Writable s'.records n → Coherent s' n) ∧
  ((Writable s.records n → Coherent s n) → Writable s'.records n → Coherent s' n)

theorem RowStep.refl (s : State) : RowStep s s :=
  ⟨[], by simp, fun _ => ⟨fun _ => rfl, by simp, id⟩⟩

theorem RowStep.trans {s s' s'' : State} (h : RowStep s s') (h' : RowStep s' s'') :
    RowStep s s'' := by
  obtain ⟨tr, htr, hrow⟩ := h
  obtain ⟨tr', htr', hrow'⟩ := h'
  refine ⟨tr ++ tr', by rw [htr', htr, List.append_assoc], fun n => ?_⟩
  obtain ⟨hkeep, hon, hcoh⟩ := hrow n
  obtain ⟨hkeep', hon', hcoh'⟩ := hrow' n
  refine ⟨fun hno => ?_, ?_, fun hc => hcoh' (hcoh hc)⟩
  · rw [hkeep' fun x hx => hno x (List.mem_append_right tr hx),
      hkeep fun x hx => hno x (List.mem_append_left tr' hx)]
  · rintro ⟨x, hx, hxn⟩
    rcases List.mem_append.mp hx with hx | hx
    · exact hcoh' (hon ⟨x, hx, hxn⟩)
    · exact hon' ⟨x, hx, hxn⟩

/-! ## The micro-steps -/

theorem blockAt_persist (s : State) (n : Slot) :
    blockAt (persist s).2.drive (slotLba n) = blockAt s.drive (slotLba n) :=
  blockAt_congr fun i => persist_sectors_of_ne s fun j => (meta_ne_slot n j i).symm

/-- A flush touches no row. -/
theorem rowStep_persist (s : State) : RowStep s (persist s).2 := by
  obtain ⟨tr, htr, hmem⟩ := persist_trace s
  refine ⟨tr, htr, fun n => ⟨fun _ => by rw [persist_contents], ?_, ?_⟩⟩
  · rintro ⟨x, hx, hxn⟩
    obtain ⟨i, ok, rfl⟩ := hmem x hx
    exact absurd hxn (not_onSlot_meta rfl)
  · intro hc hw k hk
    rw [persist_records] at hw hk
    rw [persist_contents, blockAt_persist]
    exact hc hw k hk

/-- Nor does an edit that leaves a directory, an empty file or an unused record. -/
theorem rowStep_setRecord {s : State} {n : Slot} {r : VfsRecord}
    (h : r.used ≠ 0 → r.type = VfsType.file.code → r.size = 0) : RowStep s (s.setRecord n r) := by
  refine ⟨[], by simp, fun m => ⟨fun _ => rfl, by simp, fun hc hw k hk => ?_⟩⟩
  rw [setRecord_records] at hw hk
  by_cases hm : m = n
  · subst hm
    rw [Function.update_self] at hk
    have hw' : r.used ≠ 0 ∧ r.type = VfsType.file.code := by
      have hu := hw.used
      have hf := hw.file
      rw [Function.update_self] at hu hf
      exact ⟨hu, hf⟩
    rw [h hw'.1 hw'.2] at hk
    exact absurd hk (Nat.not_lt_zero _)
  · rw [Function.update_of_ne hm] at hk
    exact hc (hw.congr (Function.update_of_ne hm _ _)) k hk

/-- Transfers on one slot that leave its row coherent, and the other slots as they were -/
theorem rowStep_of_transfer {s s' : State} {n : Slot} {tr : List Transfer}
    (htrace : s'.drive.trace = s.drive.trace ++ tr) (hslot : ∀ x ∈ tr, OnSlot n x) (hne : tr ≠ [])
    (hcoherent : Coherent s' n) (hrecords : ∀ m, m ≠ n → s'.records m = s.records m)
    (hcontents : ∀ m, m ≠ n → s'.contents m = s.contents m)
    (hblock : ∀ m, m ≠ n → blockAt s'.drive (slotLba m) = blockAt s.drive (slotLba m)) :
    RowStep s s' := by
  refine ⟨tr, htrace, fun m => ?_⟩
  by_cases hm : m = n
  · subst hm
    obtain ⟨x, hx⟩ := List.exists_mem_of_ne_nil tr hne
    exact ⟨fun hno => absurd (hslot x hx) (hno x hx), fun _ _ => hcoherent, fun _ _ => hcoherent⟩
  · refine ⟨fun _ => hcontents m hm, ?_, fun hc hw k hk => ?_⟩
    · rintro ⟨x, hx, hxm⟩
      obtain ⟨i, hi⟩ := hslot x hx
      exact absurd (eq_of_onSlot hi hxm) hm
    · rw [hrecords m hm] at hk
      rw [hcontents m hm, hblock m hm]
      exact hc (hw.congr (hrecords m hm)) k hk

/-- A refresh that succeeds makes its row coherent and touches no other. -/
theorem rowStep_refresh {s : State} {n : Slot} (hb : s.diskBacked = true)
    (hlba : (s.records n).dataLba = slotLba n) (hok : (refresh s n).1 = true) :
    RowStep s (refresh s n).2 := by
  have hcontents := refresh_contents hb hok
  obtain ⟨-, -, hsec, -⟩ := refresh_frame s n
  have hblock : ∀ m, blockAt (refresh s n).2.drive (slotLba m) = blockAt s.drive (slotLba m) :=
    fun m => blockAt_congr fun i => by rw [hsec]
  have hother : ∀ m, m ≠ n → (refresh s n).2.contents m = s.contents m := by
    intro m hm
    unfold refresh
    rw [if_pos hb]
    exact Function.update_of_ne hm _ _
  obtain ⟨tr, htr, hmem, hall⟩ := readSectors_trace (slotLba n) (List.finRange 8) (s.contents n)
    s.drive
  have htrace : (refresh s n).2.drive.trace = s.drive.trace ++ tr := by
    unfold refresh
    rw [if_pos hb, hlba]
    exact htr
  have hfull : tr = (List.finRange 8).map fun i => .read (lbaAdd (slotLba n) i) true := by
    apply hall
    unfold refresh at hok
    rw [if_pos hb, hlba] at hok
    exact hok
  apply rowStep_of_transfer htrace (n := n)
  · intro x hx
    obtain ⟨i, -, ok, rfl⟩ := hmem x hx
    exact ⟨i, rfl⟩
  · rw [hfull]
    simp
  · intro k _
    rw [hcontents, hlba, hblock]
  · intro m _
    rw [refresh_records]
  · exact hother
  · exact fun m _ => hblock m

/-- The state between the data sectors and the flush of a write -/
def dataWritten (s : State) (n : Slot) (pos : Nat) (d : List UInt8) : State :=
  { written s n pos d with
    drive := (writeSectors (s.records n).dataLba ((written s n pos d).contents n)
      (List.finRange 8) s.drive).2 }

theorem blockAt_dataWritten_of_ne {s : State} {m n : Slot} (pos : Nat) (d : List UInt8)
    (hlba : (s.records n).dataLba = slotLba n) (hm : m ≠ n) :
    blockAt (dataWritten s n pos d).drive (slotLba m) = blockAt s.drive (slotLba m) := by
  apply blockAt_congr
  intro i
  show (writeSectors (s.records n).dataLba _ _ _).2.sectors _ = _
  rw [hlba]
  exact writeSectors_sectors_of_ne _ _ _ (fun j _ => slot_ne_slot hm i j) _

/-- Storing the eight sectors makes the row coherent and touches no other. -/
theorem rowStep_dataWritten {s : State} {n : Slot} (pos : Nat) (d : List UInt8)
    (hlba : (s.records n).dataLba = slotLba n) (hs : Serves s.drive (slotLba n))
    (hw : s.drive.writeScript = []) :
    RowStep s (dataWritten s n pos d) ∧
      blockAt (dataWritten s n pos d).drive (slotLba n) = (dataWritten s n pos d).contents n := by
  have hok := hs.writeSectors_ok hw ((written s n pos d).contents n)
  obtain ⟨tr, htr, hmem, hall, -⟩ := writeSectors_trace (slotLba n) ((written s n pos d).contents n)
    (List.finRange 8) s.drive
  have hblock : blockAt (dataWritten s n pos d).drive (slotLba n)
      = (dataWritten s n pos d).contents n := by
    show blockAt (writeSectors (s.records n).dataLba _ _ _).2 _ = _
    rw [hlba]
    exact blockAt_writeSectors hok
  refine ⟨?_, hblock⟩
  apply rowStep_of_transfer (n := n)
  · show (writeSectors (s.records n).dataLba _ _ _).2.trace = _
    rw [hlba]
    exact htr
  · intro x hx
    obtain ⟨i, -, ok, rfl⟩ := hmem x hx
    exact ⟨i, rfl⟩
  · rw [hall hok]
    simp
  · intro k _
    rw [hblock]
  · exact fun m hm => Function.update_of_ne hm _ _
  · exact fun m hm => Function.update_of_ne hm _ _
  · exact fun m hm => blockAt_dataWritten_of_ne pos d hlba hm

/-! ## Whole calls and runs -/

/-- The disk has the eight data sectors of every slot. -/
def Roomy (d : Drive) : Prop := 65544 ≤ d.sectorCount.toNat

theorem serves_of_roomy {d : Drive} (hp : d.present = true) (h : Roomy d) (n : Slot) :
    Serves d (slotLba n) := by
  have hn := n.isLt
  unfold Roomy at h
  exact serves_slot hp (by omega)

/-- A write on a roomy working disk returns 0 and leaves the flushed middle state. -/
theorem writeAt_eq_of_roomy {s : State} (hwf : Wf s.records) (hh : Healthy s) (hroom : Roomy s.drive)
    {n : Slot} (hw : Writable s.records n) (pos : Nat) (d : List UInt8) :
    writeAt s n pos d = persist (dataWritten s n pos d) ∧ (writeAt s n pos d).1 = 0 := by
  have hlba := hwf.lba n (hwf.ne_root_of_writable hw) hw.used
  exact hh.writeAt_ok (by rw [hlba]; exact serves_of_roomy hh.drive.present hroom n) pos d

theorem Micro.rowStep {c : Scope} {s s' : State} (h : Micro c s s') (hwf : Wf s.records)
    (hh : Healthy s) (hroom : Roomy s.drive) : RowStep s s' := by
  have hlba : ∀ {n : Slot}, Writable s.records n → (s.records n).dataLba = slotLba n :=
    fun hw => hwf.lba _ (hwf.ne_root_of_writable hw) hw.used
  cases h with
  | create type hc => exact (rowStep_setRecord fun _ _ => rfl).trans (rowStep_persist _)
  | clear hc => exact (rowStep_setRecord fun hu _ => absurd rfl hu).trans (rowStep_persist _)
  | @refresh n hw =>
    refine rowStep_refresh hh.backed (hlba hw) ((refresh_fst_iff hh.backed hh.drive.reads).mpr ?_)
    rw [hlba hw]
    exact serves_of_roomy hh.drive.present hroom n
  | @write n pos d hw hpos =>
    rw [(writeAt_eq_of_roomy hwf hh hroom hw pos d).1]
    exact (rowStep_dataWritten pos d (hlba hw) (serves_of_roomy hh.drive.present hroom n)
      hh.drive.writes).1.trans (rowStep_persist _)

theorem Micros.rowStep {c : Scope} {s s' : State} (h : Micros c s s') (hwf : Wf s.records)
    (hh : Healthy s) (hroom : Roomy s.drive) : RowStep s s' := by
  induction h with
  | refl => exact RowStep.refl s
  | tail hsteps hstep ih =>
    obtain ⟨hh', hcount⟩ := Micros.healthy hsteps hh
    refine ih.trans (hstep.rowStep (Micros.wf hsteps hwf) hh' ?_)
    rw [Roomy, hcount]
    exact hroom

/-- Runs of arbitrary calls and reboots that remember the state after the last boot -/
inductive RunSince (d : Drive) : State → State → Prop
  | boot : RunSince d (mount d).2 (mount d).2
  | call {s₀ s s' : State} {op : Op} {r : Reply} (h : RunSince d s₀ s)
      (hstep : step s op = .ok (r, s')) : RunSince d s₀ s'
  | reboot {s₀ s : State} (h : RunSince d s₀ s) :
      RunSince d (mount s.drive).2 (mount s.drive).2

theorem RunSince.run {d : Drive} {s₀ s : State} (h : RunSince d s₀ s) :
    Run (fun _ _ => True) (fun _ => True) d s := by
  induction h with
  | boot => exact .boot
  | call _ hstep ih => exact ih.call trivial hstep
  | reboot _ ih => exact ih.reboot trivial

theorem mount_contents (d : Drive) : (mount d).2.contents = fun _ _ => 0 := by
  rw [mount_eq, persist_contents, bootState_contents]

/-- **The rows in a run**: zero after the last boot, and changed by transfers since. -/
theorem RunSince.rowStep {d : Drive} (hd : Fresh d) (hw : Working d) (hroom : Roomy d)
    {s₀ s : State} (h : RunSince d s₀ s) : s₀.contents = (fun _ _ => 0) ∧ RowStep s₀ s := by
  induction h with
  | boot => exact ⟨mount_contents d, RowStep.refl _⟩
  | call h hstep ih =>
    obtain ⟨hinv, hh, hcount⟩ := h.run.healthy hd hw
    refine ⟨ih.1, ih.2.trans ((hinv.micros hstep).rowStep hinv.wf hh ?_)⟩
    rw [Roomy, hcount]
    exact hroom
  | reboot _ _ => exact ⟨mount_contents _, RowStep.refl _⟩

/-! ## Appending -/

/-- What `vfs_read` with a capacity of 4096 returns -/
def readBytes (s : State) (p : PathArg) : Option (List UInt8) :=
  match step s (.read p 4096) with
  | .ok (.data b, _) => b
  | _ => none

/-- An append that returns 0 adds the data to what the file held, up to 4096 bytes, and leaves every
other file. -/
def AppendKeeps (s : State) (p : PathArg) (d : List UInt8) : Prop :=
  ∀ s', step s (.write p d true) = .ok (.code 0, s') →
    (∃ old, readBytes s p = some old ∧ readBytes s' p = some ((old ++ d).take 4096)) ∧
    ∀ (q : PathArg) (m : Slot), fileAt s.records q.chars = some m →
      fileAt s.records p.chars ≠ some m → readBytes s' q = readBytes s q

/-- Since the state `s₀` a data sector of the slot has been read or written. -/
def TransferredSince (s₀ s : State) (n : Slot) : Prop :=
  ∃ x ∈ s.drive.trace.drop s₀.drive.trace.length, OnSlot n x

/-- The row of a file with a transfer since the boot is what the file holds. -/
theorem RunSince.coherent {d : Drive} (hd : Fresh d) (hw : Working d) (hroom : Roomy d) {s₀ s : State}
    (h : RunSince d s₀ s) {n : Slot} (hsince : TransferredSince s₀ s n) (hn : Writable s.records n) :
    Coherent s n := by
  obtain ⟨-, tr, htr, hrow⟩ := h.rowStep hd hw hroom
  rw [TransferredSince, htr, List.drop_left] at hsince
  exact (hrow n).2.1 hsince hn

/-- Two rows agree on their first bytes. -/
theorem take_ofFn_eq_iff (b c : Block) (size : Nat) :
    (List.ofFn b).take size = (List.ofFn c).take size ↔ ∀ k : Fin 4096, k.val < size → b k = c k := by
  constructor
  · intro h k hk
    have hget := congrArg (fun l => l[k.val]?) h
    rw [List.getElem?_take_of_lt hk, List.getElem?_take_of_lt hk, List.getElem?_ofFn,
      List.getElem?_ofFn, dif_pos k.isLt, dif_pos k.isLt] at hget
    exact Option.some.inj hget
  · intro h
    apply List.ext_getElem
    · simp only [List.length_take, List.length_ofFn]
    · intro k hk _
      simp only [List.length_take, List.length_ofFn] at hk
      rw [List.getElem_take, List.getElem_take, List.getElem_ofFn, List.getElem_ofFn]
      exact h ⟨k, by omega⟩ (by dsimp only; omega)

section Append

variable {s : State} (hinv : Inv s) (hh : Healthy s) (hroom : Roomy s.drive)
include hinv hh hroom

theorem readBytes_eq {p : PathArg} {n : Slot} (hn : fileAt s.records p.chars = some n) :
    readBytes s p = some ((List.ofFn (blockAt s.drive (slotLba n))).take
      (s.records n).size.toNat) := by
  have hw := hinv.wf.writable_of_fileAt hn
  have hlba := hinv.wf.lba n (hinv.wf.ne_root_of_writable hw) hw.used
  have hserves : Serves s.drive (s.records n).dataLba := by
    rw [hlba]
    exact serves_of_roomy hh.drive.present hroom n
  have hread : step s (.read p 4096) = .ok (.data (readAt s n 4096).1, (readAt s n 4096).2) := by
    rw [step, hinv.wf.read_eq, hn]
    rfl
  have hsize : min (s.records n).size.toNat (4096 : UInt32).toNat = (s.records n).size.toNat :=
    Nat.min_eq_left (hinv.wf.size n hw.used)
  rw [readBytes, hread, hh.readAt_ok hserves, hsize, hlba]

/-- What an append leaves: the cached bytes before the offset, the data, and the other files. -/
theorem append_spec {p : PathArg} {n : Slot} (hn : fileAt s.records p.chars = some n)
    (d : List UInt8) {s' : State} {r : Reply} (hstep : step s (.write p d true) = .ok (r, s')) :
    r = .code 0 ∧
    readBytes s' p = some ((List.ofFn (s.contents n)).take (s.records n).size.toNat ++
      d.take (4096 - (s.records n).size.toNat)) ∧
    ∀ (q : PathArg) (m : Slot), fileAt s.records q.chars = some m → m ≠ n →
      readBytes s' q = readBytes s q := by
  have hw := hinv.wf.writable_of_fileAt hn
  have hlba := hinv.wf.lba n (hinv.wf.ne_root_of_writable hw) hw.used
  have hsize := hinv.wf.size n hw.used
  obtain ⟨heq, hzero⟩ := writeAt_eq_of_roomy hinv.wf hh hroom hw (s.records n).size.toNat d
  obtain ⟨hrow, hblock⟩ := rowStep_dataWritten (s.records n).size.toNat d hlba
    (serves_of_roomy hh.drive.present hroom n) hh.drive.writes
  have hm := hinv.micros hstep
  have hinv' := hm.inv hinv
  obtain ⟨hh', hcount⟩ := hm.healthy hh
  have hroom' : Roomy s'.drive := by
    rw [Roomy, hcount]
    exact hroom
  obtain ⟨c, hc, rfl⟩ := reply_eq_ok_iff.mp hstep
  have hkeep : ∀ {q : PathArg} {m : Slot}, fileAt s.records q.chars = some m →
      fileAt s'.records q.chars = some m := fun hq => hinv.wf.fileAt_of_write hc hq
  rw [hinv.wf.write_eq, hn] at hc
  have hres : writeAt s n (s.records n).size.toNat d = (c, s') := Except.ok.inj hc
  have hs' : s' = (persist (dataWritten s n (s.records n).size.toNat d)).2 := by
    rw [← heq, hres]
  have hrecords : s'.records = Function.update s.records n
      { s.records n with size := writtenSize (s.records n).size.toNat d } := by
    rw [hs', persist_records]
    rfl
  refine ⟨?_, ?_, ?_⟩
  · rw [hres] at hzero
    rw [show c = 0 from hzero]
  · have hnew : blockAt s'.drive (slotLba n) = (written s n (s.records n).size.toNat d).contents n := by
      rw [hs', blockAt_persist, hblock]
      rfl
    rw [readBytes_eq hinv' hh' hroom' (hkeep hn), hnew, hrecords]
    exact congrArg some (take_written s n hsize d)
  · intro q m hq hmn
    have hblockm : blockAt s'.drive (slotLba m) = blockAt s.drive (slotLba m) := by
      rw [hs', blockAt_persist]
      exact blockAt_dataWritten_of_ne _ d hlba hmn
    rw [readBytes_eq hinv' hh' hroom' (hkeep hq), readBytes_eq hinv hh hroom hq, hblockm, hrecords,
      Function.update_of_ne hmn]

/-- **An append is safe exactly if the row is coherent.** -/
theorem appendKeeps_iff_coherent (p : PathArg) (d : List UInt8) :
    AppendKeeps s p d ↔ ∀ n, fileAt s.records p.chars = some n → Coherent s n := by
  -- what the append should leave
  have hwant : ∀ {n : Slot}, fileAt s.records p.chars = some n →
      ((List.ofFn (blockAt s.drive (slotLba n))).take (s.records n).size.toNat ++ d).take 4096
        = (List.ofFn (blockAt s.drive (slotLba n))).take (s.records n).size.toNat ++
          d.take (4096 - (s.records n).size.toNat) := by
    intro n hn
    apply take_append_row
    exact hinv.wf.size n (hinv.wf.writable_of_fileAt hn).used
  constructor
  · intro hkeeps n hn
    obtain ⟨r, s', hstep, -⟩ := hinv.wf.step_micros (.write p d true)
    obtain ⟨rfl, hread, -⟩ := append_spec hinv hh hroom hn d hstep
    obtain ⟨⟨old, hold, hnew⟩, -⟩ := hkeeps s' hstep
    rw [readBytes_eq hinv hh hroom hn] at hold
    cases hold
    rw [hread, hwant hn] at hnew
    exact (take_ofFn_eq_iff _ _ _).mp (List.append_cancel_right (Option.some.inj hnew))
  · intro hcoh s' hstep
    cases hn : fileAt s.records p.chars with
    | none =>
      -- the call has returned -1
      rw [step, hinv.wf.write_eq, hn] at hstep
      cases hstep
    | some n =>
      obtain ⟨-, hread, hothers⟩ := append_spec hinv hh hroom hn d hstep
      have hsame := (take_ofFn_eq_iff _ _ _).mpr (hcoh n hn)
      refine ⟨⟨_, readBytes_eq hinv hh hroom hn, ?_⟩, fun q m hq hm => hothers q m hq ?_⟩
      · rw [hread, hwant hn, hsame]
      · rintro rfl
        exact hm rfl

end Append

/-- **When an append keeps what the file holds.** In every run of calls and reboots on a working disk
with room for every slot, at any moment, `s₀` being the state after the last boot: an append to `p`
leaves the old bytes followed by the data, and every other file, exactly if some transfer since that
boot was of a data sector of the file (it has been read or written since), or the bytes it holds are
all zero (it is empty, for instance). -/
theorem append_keeps_iff {d : Drive} (hd : Fresh d) (hw : Working d) (hroom : Roomy d)
    {s₀ s : State} (hs : RunSince d s₀ s) (p : PathArg) (data : List UInt8) :
    AppendKeeps s p data ↔ ∀ n, fileAt s.records p.chars = some n →
      TransferredSince s₀ s n ∨
      ∀ k : Fin 4096, k.val < (s.records n).size.toNat → blockAt s.drive (slotLba n) k = 0 := by
  obtain ⟨hinv, hh, hcount⟩ := hs.run.healthy hd hw
  have hroom' : Roomy s.drive := by
    rw [Roomy, hcount]
    exact hroom
  obtain ⟨hzero, tr, htr, hrow⟩ := hs.rowStep hd hw hroom
  have hsince : ∀ n, TransferredSince s₀ s n ↔ ∃ x ∈ tr, OnSlot n x := by
    intro n
    rw [TransferredSince, htr, List.drop_left]
  rw [appendKeeps_iff_coherent hinv hh hroom']
  refine forall₂_congr fun n hn => ?_
  rw [hsince]
  obtain ⟨hkeep, hon, -⟩ := hrow n
  by_cases htouched : ∃ x ∈ tr, OnSlot n x
  · exact iff_of_true (hon htouched (hinv.wf.writable_of_fileAt hn)) (Or.inl htouched)
  · -- the row is still the zeros of the boot
    have hrow0 : s.contents n = fun _ => 0 := by
      rw [hkeep fun x hx hxn => htouched ⟨x, hx, hxn⟩, hzero]
    rw [or_iff_right htouched]
    refine forall₂_congr fun k _ => ?_
    rw [hrow0]
    exact eq_comm

/-! ### A stale row -/

theorem calm_of_healthy {s : State} (h : Healthy s) : s.calm = s := by
  show { s with drive := calm s.drive } = s
  rw [calm_eq h.drive.reads h.drive.writes]

theorem readBytes_of_sameFiles {s t : State} (h : SameFiles s t) (p : PathArg) :
    readBytes s p = readBytes t p := by
  have hq : (Op.read p 4096).IsQuery := trivial
  have halike := h.step hq
  unfold readBytes
  generalize step s (.read p 4096) = x at halike ⊢
  generalize step t (.read p 4096) = y at halike ⊢
  cases halike with
  | fault e => rfl
  | reply r _ => cases r <;> rfl

/-- A touch of `/a` on an empty working disk creates an empty file in slot 1. -/
theorem touch_pathA {d : Drive} (hd : Fresh d) (hw : Working d) :
    ∃ s₁, step (mount d).2 (.touch pathA) = .ok (.code 0, s₁) ∧
      fileAt s₁.records pathA.chars = some 1 ∧ (s₁.records 1).size = 0 := by
  obtain ⟨s₁, htouch, hrec, hfile, -⟩ :=
    Healthy.exists_touch hd.inv_mount.wf (healthy_mount hw) (createTarget_pathA hd)
  refine ⟨s₁, reply_eq_ok_iff.mpr ⟨0, htouch, rfl⟩, hfile, ?_⟩
  rw [hrec, Function.update_self, newRecord_size]

theorem working_65544 : Working (blankDisk 65544) := working_blankDisk (by decide)

theorem roomy_65544 : Roomy (blankDisk 65544) := show 65544 ≤ (65544 : UInt32).toNat by decide

/-- An append of `x` to the new file `/a` stores it, in a data sector of the file. -/
theorem exists_appended : ∃ s₁ s₂, step (mount (blankDisk 65544)).2 (.touch pathA) = .ok (.code 0, s₁) ∧
    step s₁ (.write pathA [120] true) = .ok (.code 0, s₂) ∧
    RunSince (blankDisk 65544) (mount (blankDisk 65544)).2 s₂ ∧ fileAt s₂.records pathA.chars = some 1 ∧
    readBytes s₂ pathA = some [120] ∧ TransferredSince (mount (blankDisk 65544)).2 s₂ 1 := by
  have hd := fresh_blankDisk 65544
  obtain ⟨s₁, htouch, hfile, hsize⟩ := touch_pathA hd working_65544
  have hrun₁ : RunSince (blankDisk 65544) _ s₁ := .call .boot htouch
  obtain ⟨hinv₁, hh₁, hcount₁⟩ := hrun₁.run.healthy hd working_65544
  have hroom₁ : Roomy s₁.drive := by
    rw [Roomy, hcount₁]
    exact roomy_65544
  have hw := hinv₁.wf.writable_of_fileAt hfile
  obtain ⟨r₂, s₂, hwrite, -⟩ := hinv₁.wf.step_micros (.write pathA [120] true)
  obtain ⟨rfl, hread, -⟩ := append_spec hinv₁ hh₁ hroom₁ hfile [120] hwrite
  obtain ⟨c, hcall, -⟩ := reply_eq_ok_iff.mp hwrite
  have hfile₂ := hinv₁.wf.fileAt_of_write hcall hfile
  -- the transfer
  rw [hinv₁.wf.write_eq, hfile] at hcall
  obtain ⟨tr, b, htr, hmem⟩ := mem_trace_writeAt hh₁.backed (writeAt_eq_of_roomy hinv₁.wf hh₁ hroom₁ hw
    (writePos s₁.records 1 true) [120]).2
  rw [show writeAt s₁ 1 (writePos s₁.records 1 true) [120] = (c, s₂) from Except.ok.inj hcall] at htr
  obtain ⟨-, tr₁, htr₁, -⟩ := hrun₁.rowStep hd working_65544 roomy_65544
  refine ⟨s₁, s₂, htouch, hwrite, hrun₁.call hwrite, hfile₂, by rw [hread, hsize]; rfl, ?_⟩
  have hlba := hinv₁.wf.lba 1 (by decide) hw.used
  refine ⟨.write (lbaAdd (s₁.records 1).dataLba 0) b true, ?_, 0, by rw [← hlba]; rfl⟩
  rw [show s₂.drive.trace = _ from htr, htr₁, List.append_assoc, List.drop_left]
  exact List.mem_append_right _ hmem

/-- An append to a file that was written since the boot keeps its byte. -/
theorem append_keeps_iff_written : ∃ s₁ s₂,
    step (mount (blankDisk 65544)).2 (.touch pathA) = .ok (.code 0, s₁) ∧
    step s₁ (.write pathA [120] true) = .ok (.code 0, s₂) ∧ readBytes s₂ pathA = some [120] ∧
    AppendKeeps s₂ pathA [121] := by
  obtain ⟨s₁, s₂, htouch, hwrite, hrun₂, hfile₂, hread, hsince⟩ := exists_appended
  refine ⟨s₁, s₂, htouch, hwrite, hread, (append_keeps_iff (fresh_blankDisk 65544) working_65544 roomy_65544
    hrun₂ pathA [121]).mpr fun n hn => Or.inl ?_⟩
  obtain rfl := Option.some.inj (hfile₂.symm.trans hn)
  exact hsince

/-- **The first append after a reboot destroys the file**: it held `x`, and after appending `y` it
holds a zero byte and `y`. -/
theorem append_after_reboot_destroys : ∃ s₁ s₂ s₄,
    step (mount (blankDisk 65544)).2 (.touch pathA) = .ok (.code 0, s₁) ∧
    step s₁ (.write pathA [120] true) = .ok (.code 0, s₂) ∧
    step (mount s₂.drive).2 (.write pathA [121] true) = .ok (.code 0, s₄) ∧
    readBytes (mount s₂.drive).2 pathA = some [120] ∧ readBytes s₄ pathA = some [0, 121] ∧
    ¬ AppendKeeps (mount s₂.drive).2 pathA [121] := by
  have hd := fresh_blankDisk 65544
  have hroom := roomy_65544
  obtain ⟨s₁, s₂, htouch, hwrite, hrun₂, hfile₂, hread₂', -⟩ := exists_appended
  obtain ⟨hinv₂, hh₂, -⟩ := hrun₂.run.healthy hd working_65544
  -- the file holds `x`, and still does after the reboot
  have hsync₂ : Synced s₂ :=
    ((synced_mount rfl working_65544.serves).step htouch rfl).step hwrite rfl
  have hcalm : calm s₂.drive = s₂.drive := calm_eq hh₂.drive.reads hh₂.drive.writes
  have hsame := hsync₂.sameFiles_reboot hinv₂.wf.dataApart
  rw [hcalm, calm_of_healthy hh₂] at hsame
  have hread₃ : readBytes (mount s₂.drive).2 pathA = some [120] := by
    rw [← readBytes_of_sameFiles hsame, hread₂']
  have hfile₃ : fileAt (mount s₂.drive).2.records pathA.chars = some 1 := by
    rw [hsame.records]
    exact hfile₂
  have hrun₃ := hrun₂.reboot
  obtain ⟨hinv₃, hh₃, hcount₃⟩ := hrun₃.run.healthy hd working_65544
  have hroom₃ : Roomy (mount s₂.drive).2.drive := by
    rw [Roomy, hcount₃]
    exact hroom
  have hsize₃ : ((mount s₂.drive).2.records 1).size.toNat = 1 := by
    have hlen := congrArg List.length
      (Option.some.inj ((readBytes_eq hinv₃ hh₃ hroom₃ hfile₃).symm.trans hread₃))
    rw [List.length_take, List.length_ofFn, List.length_singleton] at hlen
    omega
  obtain ⟨r₄, s₄, happend, -⟩ := hinv₃.wf.step_micros (.write pathA [121] true)
  obtain ⟨rfl, hread₄, -⟩ := append_spec hinv₃ hh₃ hroom₃ hfile₃ [121] happend
  have hread₄' : readBytes s₄ pathA = some [0, 121] := by
    rw [hread₄, hsize₃, mount_contents, List.ofFn_succ]
    rfl
  refine ⟨s₁, s₂, s₄, htouch, hwrite, happend, hread₃, hread₄', fun hkeeps => ?_⟩
  obtain ⟨⟨old, hold, hnew⟩, -⟩ := hkeeps s₄ happend
  rw [hread₃] at hold
  cases hold
  rw [hread₄'] at hnew
  exact absurd hnew (by decide)

end MinOS.Vfs
