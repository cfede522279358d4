/-
# MinOS.Vfs.Crash — power loss in the middle of a flush.

`persist` rewrites eight sectors in place, in ascending order and without a journal; 44-byte records
straddle the boundaries of 512-byte sectors. Power loss after `m` sector writes is a drive that stores
the next `m` writes and none after them. What a later mount loads is then a torn table: each record
byte is new if it lies in a sector that was written, old otherwise.

Two facts make this harmless. The last twelve bytes of a record (parent, type, used, size, data
address) never straddle a boundary (`tail_in_one_sector`), so a torn record differs from the old one in
its name at most. And every operation edits one record, in a way that keeps the name unless the slot was
free (`Edit`): a torn record is an unused one, or the old one.
-/
import MinOS.Vfs.Remount

namespace MinOS.Vfs

open MinOS.Ata Machine
open Bytes (leNat_congr)

/-! ## A write loop that is cut -/

/-- The next `k` writes are stored, the one after them is refused. -/
def CutAfter (k : Nat) (d : Drive) : Prop :=
  ∃ rest, d.writeScript = List.replicate k .stored ++ .refused :: rest

/-- The loop stores the first `k` sectors of its list and nothing else; with `k` at least the length of
the list it returns 0 and the rest of the allowance is left. -/
theorem writeSectors_cut (base : UInt32) (b : Block) (is : List (Fin 8)) (hnodup : is.Nodup) :
    ∀ k d, CutAfter k d → (∀ i ∈ is, ataTransferAccepts d (lbaAdd base i) = true) →
      (∀ i ∈ is.take k,
        (writeSectors base b is d).2.sectors (lbaAdd base i).toNat = sectorOf b i) ∧
      (∀ n, (∀ i ∈ is.take k, n ≠ (lbaAdd base i).toNat) →
        (writeSectors base b is d).2.sectors n = d.sectors n) ∧
      ((writeSectors base b is d).1 = decide (is.length ≤ k)) ∧
      (is.length ≤ k → CutAfter (k - is.length) (writeSectors base b is d).2) := by
  induction is with
  | nil =>
    intro k d hcut _
    exact ⟨by simp, fun n _ => rfl, by simp [writeSectors], fun _ => hcut⟩
  | cons i is ih =>
    intro k d hcut hacc
    rw [List.nodup_cons] at hnodup
    obtain ⟨rest, hrest⟩ := hcut
    have hi := hacc i (by simp)
    cases k with
    | zero =>
      -- the power is gone
      obtain ⟨hfail, hsec⟩ := ataWrite28_of_refused d (lbaAdd base i) (sectorOf b i) hrest hi
      rw [writeSectors_cons_fail base b is hfail]
      exact ⟨by simp, fun n _ => congrFun hsec n, by simp, by simp⟩
    | succ k =>
      obtain ⟨hok, hscript⟩ := ataWrite28_of_stored d (lbaAdd base i) (sectorOf b i) hrest hi
      have hsec := ataWrite28_sectors_of_ok d (lbaAdd base i) (sectorOf b i) hok
      rw [writeSectors_cons_ok base b is hok]
      obtain ⟨hin, hout, hres, hleft⟩ := ih hnodup.2 k _ ⟨rest, hscript⟩ fun j hj => by
        rw [ataTransferAccepts_congr (ataWrite28_present d _ _) (ataWrite28_sectorCount d _ _)]
        exact hacc j (List.mem_cons_of_mem i hj)
      refine ⟨?_, ?_, ?_, ?_⟩
      · intro j hj
        rw [List.take_succ_cons] at hj
        rcases List.mem_cons.mp hj with rfl | hj
        · have hlater : ∀ m ∈ is.take k, (lbaAdd base j).toNat ≠ (lbaAdd base m).toNat :=
            fun m hm he => hnodup.1 (lbaAdd_inj he ▸ List.mem_of_mem_take hm)
          rw [hout _ hlater, hsec, Function.update_self]
        · exact hin j hj
      · intro n hn
        rw [List.take_succ_cons] at hn
        rw [hout n fun m hm => hn m (List.mem_cons_of_mem i hm), hsec,
          Function.update_of_ne (hn i (by simp))]
      · rw [hres]
        simp
      · intro hlen
        simp only [List.length_cons, Nat.add_le_add_iff_right] at hlen ⊢
        rw [Nat.add_sub_add_right]
        exact hleft hlen

theorem mem_take_finRange {i : Fin 8} {k : Nat} : i ∈ (List.finRange 8).take k ↔ i.val < k := by
  rw [List.mem_take_iff_getElem]
  constructor
  · rintro ⟨j, hj, rfl⟩
    rw [List.getElem_finRange]
    exact lt_of_lt_of_le hj (Nat.min_le_left _ _)
  · intro hi
    refine ⟨i, by simpa using hi, ?_⟩
    rw [List.getElem_finRange]
    rfl

/-- The eight sectors after a cut flush: the first `k` are new. -/
theorem blockAt_cut {base : UInt32} {b : Block} {d : Drive} {k : Nat} (hcut : CutAfter k d)
    (hserves : Serves d base) (pos : Fin 4096) :
    blockAt (writeSectors base b (List.finRange 8) d).2 base pos =
      if pos.val / 512 < k then b pos else blockAt d base pos := by
  obtain ⟨hin, hout, -⟩ := writeSectors_cut base b (List.finRange 8) (List.nodup_finRange 8) k d hcut
    fun i _ => hserves i
  have hpos := pos.isLt
  by_cases hk : pos.val / 512 < k
  · rw [if_pos hk, blockAt, hin ⟨pos / 512, by omega⟩ (mem_take_finRange.mpr hk), sectorOf]
    congr 1
    exact Fin.ext (Nat.div_add_mod pos.val 512)
  · rw [if_neg hk, blockAt, blockAt, hout]
    intro i hi he
    rw [← lbaAdd_inj he] at hi
    exact hk (mem_take_finRange.mp hi)

/-! ## Torn records -/

/-- **The tail of a record lies in one sector.** -/
theorem tail_in_one_sector (i : Slot) : (8 + 44 * i.val + 32) / 512 = (8 + 44 * i.val + 43) / 512 := by
  revert i; decide

/-- A record whose bytes in the first `k` sectors are those of `new` and the others those of `old`:
either it is `new`, or it is `old` up to name bytes. -/
def Torn (old new r : VfsRecord) : Prop :=
  r = new ∨ ∃ name, (∀ j, name j = new.name j ∨ name j = old.name j) ∧ r = { old with name }

theorem torn_of_bytes {i : Slot} {k : Nat} {all : Block} {new : VfsRecord} {mixed : Block}
    (hmixed : ∀ j < 44, byteAt mixed (8 + 44 * i + j) =
      if (8 + 44 * i.val + j) / 512 < k then recordByte new j else byteAt all (8 + 44 * i + j)) :
    Torn (decodeTable all i) new (decodeTable mixed i) := by
  have htail := tail_in_one_sector i
  by_cases hk : (8 + 44 * i.val + 43) / 512 < k
  · -- every byte is new
    left
    have hnew : ∀ j < 44, byteAt mixed (8 + 44 * i + j) = recordByte new j := by
      intro j hj
      rw [hmixed j hj, if_pos (by omega)]
    rw [decodeTable, recordOfBytes_congr hnew, recordOfBytes_recordByte]
  · -- the tail is old
    right
    have hold : ∀ j, 32 ≤ j → j < 44 →
        byteAt mixed (8 + 44 * i + j) = byteAt all (8 + 44 * i + j) := by
      intro j h32 h44
      rw [hmixed j h44, if_neg (by omega)]
    refine ⟨(decodeTable mixed i).name, fun j => ?_, ?_⟩
    · show byteAt mixed (8 + 44 * i + j) = _ ∨ byteAt mixed (8 + 44 * i + j) = _
      rw [hmixed j (by omega)]
      split
      · left
        simp [recordByte]
      · right
        rfl
    · simp only [decodeTable, recordOfBytes, hold 34 (by omega) (by omega),
        hold 35 (by omega) (by omega),
        leNat_congr (w := 2) fun m hm => hold (32 + m) (by omega) (by omega),
        leNat_congr (w := 4) fun m hm => hold (36 + m) (by omega) (by omega),
        leNat_congr (w := 4) fun m hm => hold (40 + m) (by omega) (by omega)]

/-- **What a cut flush leaves**: a table of torn records, still with the magic. -/
theorem stored_persist_cut {s : State} {g : UInt32} {t : Table} {k : Nat}
    (hd : s.diskBacked = true) (hst : stored s.drive = some (g, t)) (hcut : CutAfter k s.drive) :
    ∃ g' u, stored (persist s).2.drive = some (g', u) ∧ ∀ i, Torn (t i) (s.records i) (u i) := by
  have hserves := Serves.of_stored hst
  have hblock := blockAt_cut (b := encodeMeta (s.generation + 1) s.records) hcut hserves
  rw [stored_eq] at hst
  split at hst
  case isFalse => cases hst
  rename_i hmagic
  obtain ⟨-, rfl⟩ := Prod.mk.inj (Option.some.inj hst)
  have hserves' : Serves (persist s).2.drive vfsMetaLba :=
    hserves.congr (persist_present s) (persist_sectorCount s)
  have hdrive : (persist s).2.drive = (writeSectors vfsMetaLba
      (encodeMeta (s.generation + 1) s.records) (List.finRange 8) s.drive).2 := by
    unfold persist
    rw [if_pos hd]
  have hmagic' : hasMagic ((persist s).2.drive.sectors vfsMetaLba.toNat) = true := by
    obtain ⟨hin, hout, -⟩ := writeSectors_cut vfsMetaLba (encodeMeta (s.generation + 1) s.records)
      (List.finRange 8) (List.nodup_finRange 8) k s.drive hcut fun i _ => hserves i
    -- The magic is in the first sector, the new one or the old one.
    by_cases hk : 0 < k
    · have := hin 0 (mem_take_finRange.mpr hk)
      rw [lbaAdd_zero] at this
      rw [hdrive, this]
      exact hasMagic_encodeMeta _ _
    · rw [hdrive, hout _ fun i hi => absurd (mem_take_finRange.mp hi) (by omega)]
      exact hmagic.2
  refine ⟨_, _, by rw [stored_eq, if_pos ⟨hserves', hmagic'⟩], fun i => torn_of_bytes (k := k) fun j hj => ?_⟩
  have hlt : 8 + 44 * i.val + j < 4096 := by omega
  rw [byteAt, dif_pos hlt, byteAt, dif_pos hlt, hdrive, hblock ⟨_, hlt⟩,
    ← byteAt_encodeMeta (s.generation + 1) s.records i hj, byteAt, dif_pos hlt]

/-! ## The used records of a torn table -/

/-- The used records with their index -/
def usedRecords (t : Table) : Set (Slot × VfsRecord) := {x | (t x.1).used ≠ 0 ∧ t x.1 = x.2}

/-- Unused records do not matter. -/
theorem usedRecords_congr {t u : Table}
    (h : ∀ i, u i = t i ∨ ((u i).used = 0 ∧ (t i).used = 0)) : usedRecords u = usedRecords t := by
  ext ⟨i, r⟩
  show (u i).used ≠ 0 ∧ u i = r ↔ (t i).used ≠ 0 ∧ t i = r
  rcases h i with he | ⟨hu, ht⟩
  · rw [he]
  · simp [hu, ht]

/-- With the same name in both, a torn record is one of the two. -/
theorem Torn.eq_or_eq {old new r : VfsRecord} (h : Torn old new r) (hname : new.name = old.name) :
    r = new ∨ r = old := by
  rcases h with h | ⟨name, hn, rfl⟩
  · exact Or.inl h
  · right
    have hsame : name = old.name := by
      funext j
      rcases hn j with hj | hj
      · rw [hj, hname]
      · exact hj
    rw [hsame]

/-- **A torn edit is all or nothing**, as far as used records are concerned. -/
theorem usedRecords_torn {t t' u : Table} (he : Edit t t') (hu : ∀ i, Torn (t i) (t' i) (u i)) :
    usedRecords u = usedRecords t ∨ usedRecords u = usedRecords t' := by
  -- away from the edited slot both tables agree, so the torn one does too
  have hother : ∀ {n : Slot} {r : VfsRecord}, t' = Function.update t n r → ∀ i, i ≠ n →
      u i = t i ∧ u i = t' i := by
    intro n r ht' i hi
    have hsame : t' i = t i := by rw [ht', Function.update_of_ne hi]
    rcases (hu i).eq_or_eq (by rw [hsame]) with h | h
    · exact ⟨h.trans hsame, h⟩
    · exact ⟨h, h.trans hsame.symm⟩
  have hkept : ∀ {n : Slot} {r : VfsRecord}, t' = Function.update t n r → r.name = (t n).name →
      usedRecords u = usedRecords t ∨ usedRecords u = usedRecords t' := by
    intro n r ht' hname
    have hn : t' n = r := by rw [ht', Function.update_self]
    rcases (hu n).eq_or_eq (by rw [hn, hname]) with h | h
    · refine Or.inr (usedRecords_congr fun i => Or.inl ?_)
      by_cases hi : i = n
      · rw [hi, h]
      · exact (hother ht' i hi).2
    · refine Or.inl (usedRecords_congr fun i => Or.inl ?_)
      by_cases hi : i = n
      · rw [hi, h]
      · exact (hother ht' i hi).1
  cases he with
  | @create q y j k type hc =>
    rcases hu k with h | ⟨name, -, h⟩
    · refine Or.inr (usedRecords_congr fun i => Or.inl ?_)
      by_cases hi : i = k
      · rw [hi, h]
      · exact (hother rfl i hi).2
    · -- the slot was free, and its `used` byte is still the old one
      refine Or.inl (usedRecords_congr fun i => ?_)
      by_cases hi : i = k
      · rw [hi, h]
        exact Or.inr ⟨hc.free, hc.free⟩
      · exact Or.inl (hother rfl i hi).1
  | clear hc => exact hkept rfl rfl
  | resize hw hsize => exact hkept rfl rfl

/-! ## Power loss in the middle of a call -/

/-- `mkdir`, `touch`, `rmdir`, `remove` or `write`: the calls that flush at most once -/
def Op.SingleFlush : Op → Prop
  | .mkdir _ | .touch _ | .rmdir _ | .remove _ | .write .. => True
  | _ => False

/-- The drive stores the next `m` writes; none of the sixteen after them, the most a single call makes,
reaches the medium. -/
def State.cut (s : State) (m : Nat) : State :=
  { s with drive := scripted s.drive [] (List.replicate m .stored ++ List.replicate 16 .refused) }

theorem cutAfter_cut (s : State) (m : Nat) : CutAfter m (s.cut m).drive :=
  ⟨List.replicate 15 .refused, rfl⟩

/-- **What a function that flushes once does** on the table `t`, whatever the drive: nothing, one edit
and a flush, or a write. -/
inductive FlushesOnce {ρ : Type} (t : Table) (f : State → Except Fault (ρ × State)) : Prop
  | nothing (h : ∀ s : State, s.records = t → ∃ r, f s = .ok (r, s))
  | edit (n : Slot) (record : VfsRecord) (he : Edit t (Function.update t n record))
      (h : ∀ s : State, s.records = t → ∃ r, f s = .ok (r, (persist (s.setRecord n record)).2))
  | write (n : Slot) (pos : Nat) (d : List UInt8) (hw : Writable t n) (hpos : pos ≤ vfsContentMax)
      (h : ∀ s : State, s.records = t → ∃ r, f s = .ok (r, (writeAt s n pos d).2))

/-- The return code becomes the reply. -/
theorem FlushesOnce.reply {t : Table} {f : State → Except Fault (Int × State)}
    (h : FlushesOnce t f) : FlushesOnce t fun s => f s >>= fun a => pure (a.map Reply.code id) := by
  have hlift : ∀ {s s' : State}, (∃ r, f s = .ok (r, s')) →
      ∃ r, (f s >>= fun a => pure (a.map Reply.code id)) = .ok (r, s') := by
    rintro s s' ⟨r, hr⟩
    exact ⟨.code r, reply_eq_ok_iff.mpr ⟨r, hr, rfl⟩⟩
  cases h with
  | nothing h => exact .nothing fun s hs => hlift (h s hs)
  | edit n record he h => exact .edit n record he fun s hs => hlift (h s hs)
  | write n pos d hw hpos h => exact .write n pos d hw hpos fun s hs => hlift (h s hs)

section FlushesOnce

variable {t : Table} (h : Wf t)
include h

theorem Wf.flushesOnce_create (p : PathArg) (type : VfsType) :
    FlushesOnce t fun s => create s p.chars type := by
  cases ht : createTarget t p.chars with
  | none =>
    refine .nothing fun s hs => ⟨-1, ?_⟩
    rw [Wf.create_eq (s := s) (hs ▸ h), hs, ht]
  | some x =>
    obtain ⟨j, k, x⟩ := x
    obtain ⟨q, -, hc⟩ := creatable_of_createTarget ht
    refine .edit k (newRecord type j k x) (.create type hc) fun s hs =>
      ⟨(persist (s.setRecord k (newRecord type j k x))).1, ?_⟩
    rw [Wf.create_eq (s := s) (hs ▸ h), hs, ht]

theorem Wf.flushesOnce_touch (p : PathArg) : FlushesOnce t fun s => vfsTouch s p.chars := by
  have htouch : ∀ s : State, s.records = t → vfsTouch s p.chars =
      if (lookup t p.chars).isSome then .ok (0, s) else create s p.chars .file := by
    rintro s rfl
    exact h.touch_eq p
  by_cases hl : (lookup t p.chars).isSome = true
  · refine .nothing fun s hs => ⟨0, ?_⟩
    rw [htouch s hs, if_pos hl]
  · have hsame : ∀ s : State, s.records = t → vfsTouch s p.chars = create s p.chars .file := by
      intro s hs
      rw [htouch s hs, if_neg hl]
    cases h.flushesOnce_create p .file with
    | nothing hc => exact .nothing fun s hs => by rw [hsame s hs]; exact hc s hs
    | edit n record he hc => exact .edit n record he fun s hs => by rw [hsame s hs]; exact hc s hs
    | write n pos d hw hpos hc =>
      exact .write n pos d hw hpos fun s hs => by rw [hsame s hs]; exact hc s hs

theorem Wf.flushesOnce_rmdir (p : PathArg) : FlushesOnce t fun s => vfsRmdir s p.chars := by
  cases hn : rmdirTarget t p.chars with
  | none =>
    refine .nothing fun s hs => ⟨-1, ?_⟩
    rw [Wf.rmdir_eq (s := s) (hs ▸ h), hs, hn]
  | some n =>
    refine .edit n _ (.clear (h.clearable_of_rmdirTarget hn)) fun s hs => ⟨(clearUsed s n).1, ?_⟩
    subst hs
    rw [h.rmdir_eq, hn]
    rfl

theorem Wf.flushesOnce_remove (p : PathArg) : FlushesOnce t fun s => vfsRemove s p.chars := by
  cases hn : fileAt t p.chars with
  | none =>
    refine .nothing fun s hs => ⟨-1, ?_⟩
    rw [Wf.remove_eq (s := s) (hs ▸ h), hs, hn]
  | some n =>
    have hc := h.clearable_of_writable (h.writable_of_fileAt hn)
    refine .edit n _ (.clear hc) fun s hs => ⟨(clearUsed s n).1, ?_⟩
    subst hs
    rw [h.remove_eq, hn]
    rfl

theorem Wf.flushesOnce_write (p : PathArg) (d : List UInt8) (append : Bool) :
    FlushesOnce t fun s => vfsWrite s p.chars d append := by
  cases hn : fileAt t p.chars with
  | none =>
    refine .nothing fun s hs => ⟨-1, ?_⟩
    rw [Wf.write_eq (s := s) (hs ▸ h), hs, hn]
  | some n =>
    have hw := h.writable_of_fileAt hn
    refine .write n (writePos t n append) d hw (h.writePos_le hw append) fun s hs =>
      ⟨(writeAt s n (writePos t n append) d).1, ?_⟩
    rw [Wf.write_eq (s := s) (hs ▸ h), hs, hn]

theorem Wf.flushesOnce {op : Op} (hop : op.SingleFlush) : FlushesOnce t fun s => step s op := by
  cases op with
  | mkdir p => exact (h.flushesOnce_create p .directory).reply
  | touch p => exact (h.flushesOnce_touch p).reply
  | rmdir p => exact (h.flushesOnce_rmdir p).reply
  | remove p => exact (h.flushesOnce_remove p).reply
  | write p d append => exact (h.flushesOnce_write p d append).reply
  | read | copy | move | list | stat => exact hop.elim

end FlushesOnce

/-- The table a mount loads after a flush was cut -/
theorem crash_persist {s : State} {t : Table} {g : UInt32} {k : Nat} (hd : s.diskBacked = true)
    (hst : stored s.drive = some (g, t)) (hcut : CutAfter k s.drive) (he : Edit t s.records) :
    usedRecords (mount (calm (persist s).2.drive)).2.records = usedRecords t ∨
    usedRecords (mount (calm (persist s).2.drive)).2.records = usedRecords s.records := by
  obtain ⟨g', u, hu, htorn⟩ := stored_persist_cut hd hst hcut
  rw [(mount_calm hu).1]
  exact usedRecords_torn he htorn

/-- A write that is cut: in its data sectors, which leaves the metadata alone, or in its flush -/
theorem crash_writeAt {s : State} (hinv : Inv s) (hd : s.diskBacked = true) {g : UInt32} {m : Nat}
    (hst : stored s.drive = some (g, s.records)) (hcut : CutAfter m s.drive) {n : Slot} {pos : Nat}
    (d : List UInt8) (hw : Writable s.records n) (hpos : pos ≤ vfsContentMax) :
    usedRecords (mount (calm (writeAt s n pos d).2.drive)).2.records = usedRecords s.records ∨
    usedRecords (mount (calm (writeAt s n pos d).2.drive)).2.records
      = usedRecords (writeAt s n pos d).2.records := by
  have hlba := hinv.wf.lba n (hinv.wf.ne_root_of_writable hw) hw.used
  have hst' := stored_writeSectors_slot n ((written s n pos d).contents n) s.drive
  rw [writeAt_eq, if_pos hd, hlba]
  cases heq : writeSectors (slotLba n) ((written s n pos d).contents n) (List.finRange 8)
      s.drive with
  | mk ok drive =>
    rw [heq] at hst'
    -- Cut among the data sectors, no metadata was written; after them, the flush is cut.
    cases ok with
    | false =>
      left
      show usedRecords (mount (calm drive)).2.records = _
      rw [(mount_calm (hst'.trans hst)).1]
    | true =>
      have hserves : Serves s.drive (slotLba n) := Serves.of_writeSectors (by rw [heq])
      obtain ⟨-, -, hres, hleft⟩ := writeSectors_cut (slotLba n) ((written s n pos d).contents n)
        (List.finRange 8) (List.nodup_finRange 8) m s.drive hcut fun i _ => hserves i
      rw [heq] at hres hleft
      have hedit : Edit s.records (written s n pos d).records :=
        .resize hw (writtenSize_le hpos d)
      have := crash_persist (s := { written s n pos d with drive }) hd (hst'.trans hst)
        (hleft (of_decide_eq_true hres.symm)) hedit
      rw [persist_records]
      exact this

/-- **A flush is crash-atomic at record level.** In every reachable synced state, for every call that
flushes once and every number `m` of sector writes that reach the medium before power is lost (`k` of
the flush: `m = k`, and `m = 8 + k` for a `write`, whose data sectors come first), the used records the
next `vfs_init` loads are those before the call or those after it. -/
theorem flush_crash_atomic {d : Drive} (hd : Fresh d) {s : State} (hs : Reachable d s)
    (hsync : Synced s) {op : Op} (hop : op.SingleFlush) (m : Nat) {r r₁ : Reply} {s' s₁ : State}
    (hcrash : step (s.cut m) op = .ok (r, s')) (hwhole : step s.calm op = .ok (r₁, s₁)) :
    usedRecords (mount (calm s'.drive)).2.records = usedRecords s.records ∨
    usedRecords (mount (calm s'.drive)).2.records = usedRecords s₁.records := by
  have hinv := hs.inv hd
  have hinv' : Inv (s.cut m) := ⟨hinv.wf, hinv.backed, fun _ _ =>
    ⟨_, _, (stored_scripted _ _ _).trans hsync.2, hinv.wf⟩⟩
  have hst : stored (s.cut m).drive = some (s.generation, (s.cut m).records) :=
    (stored_scripted _ _ _).trans hsync.2
  obtain hnone | ⟨n, record, he, hflush⟩ | ⟨n, pos, b, hw, hpos, hwrite⟩ := hinv.wf.flushesOnce hop
  · -- nothing is written
    obtain ⟨_, hr⟩ := hnone (s.cut m) rfl
    rw [hcrash] at hr
    cases hr
    left
    rw [(mount_calm hst).1]
    rfl
  · obtain ⟨_, hr⟩ := hflush (s.cut m) rfl
    obtain ⟨_, hr₁⟩ := hflush s.calm rfl
    rw [hcrash] at hr
    rw [hwhole] at hr₁
    cases hr
    cases hr₁
    rw [persist_records]
    exact crash_persist (s := (s.cut m).setRecord n record) hsync.1 hst (cutAfter_cut s m) he
  · obtain ⟨_, hr⟩ := hwrite (s.cut m) rfl
    obtain ⟨_, hr₁⟩ := hwrite s.calm rfl
    rw [hcrash] at hr
    rw [hwhole] at hr₁
    cases hr
    cases hr₁
    have := crash_writeAt hinv' hsync.1 hst (cutAfter_cut s m) b hw hpos
    rw [writeAt_records] at this ⊢
    exact this

theorem flush_crash_atomic_mkdir : ∃ r s' r₁ s₁,
    step ((mount (blankDisk 65536)).2.cut 1) (.mkdir pathA) = .ok (r, s') ∧
    step (mount (blankDisk 65536)).2.calm (.mkdir pathA) = .ok (r₁, s₁) ∧
    (usedRecords (mount (calm s'.drive)).2.records
        = usedRecords (mount (blankDisk 65536)).2.records ∨
      usedRecords (mount (calm s'.drive)).2.records = usedRecords s₁.records) := by
  have hd := fresh_blankDisk 65536
  have hwf := hd.inv_mount.wf
  obtain ⟨r, s', hcrash, -⟩ := Wf.step_micros (s := (mount (blankDisk 65536)).2.cut 1) hwf
    (.mkdir pathA)
  obtain ⟨r₁, s₁, hwhole, -⟩ := Wf.step_micros (s := (mount (blankDisk 65536)).2.calm) hwf
    (.mkdir pathA)
  have hop : (Op.mkdir pathA).SingleFlush := trivial
  exact ⟨r, s', r₁, s₁, hcrash, hwhole, flush_crash_atomic hd .boot
    (synced_mount rfl serves_blankDisk) hop 1 hcrash hwhole⟩

end MinOS.Vfs
