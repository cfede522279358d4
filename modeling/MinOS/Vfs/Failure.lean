/-
# MinOS.Vfs.Failure — what a call that returned -1 leaves behind.

Every operation edits the table in memory and flushes it afterwards; nothing is rolled back when the
flush fails. So -1 has two meanings. If no `ata_write28` of the call failed, the call was refused (or a
read failed) before its first edit, and the filesystem is as it was (`failed_call_keeps_files`). If one
did fail, the edit is in memory; but even then only records within the call's scope have changed.
-/
import MinOS.Vfs.Layout
import MinOS.Vfs.Query

namespace MinOS.Vfs

open MinOS.Ata Machine

/-- Not a write that returned -1 -/
def WriteOk (x : Transfer) : Prop := ∀ lba b, x ≠ .write lba b false

/-- No `ata_write28` between the two states of the drive failed. -/
abbrev NoFailedWrite : Drive → Drive → Prop := Traced WriteOk

/-! ## Splitting a trace -/

/-- The trace of the second extends that of the first. -/
abbrev Extends : Drive → Drive → Prop := Traced fun _ => True

theorem Traced.extends {P : Transfer → Prop} {d d' : Drive} (h : Traced P d d') : Extends d d' :=
  h.mono fun _ _ => trivial

theorem Traced.split {P : Transfer → Prop} {d d' d'' : Drive} (h : Traced P d d'')
    (h₁ : Extends d d') (h₂ : Extends d' d'') : Traced P d d' ∧ Traced P d' d'' := by
  obtain ⟨tr, htr, hP⟩ := h
  obtain ⟨tr₁, htr₁, -⟩ := h₁
  obtain ⟨tr₂, htr₂, -⟩ := h₂
  have hboth : d.trace ++ tr = d.trace ++ (tr₁ ++ tr₂) := by
    rw [← htr, htr₂, htr₁, List.append_assoc]
  have hsplit : tr = tr₁ ++ tr₂ := List.append_cancel_left hboth
  subst hsplit
  exact ⟨⟨tr₁, htr₁, fun x hx => hP x (List.mem_append_left _ hx)⟩,
    ⟨tr₂, htr₂, fun x hx => hP x (List.mem_append_right _ hx)⟩⟩

theorem Inv.extends {s s' : State} {c : Scope} (h : Inv s) (hsteps : Micros c s s') :
    Extends s.drive s'.drive :=
  (hsteps.traced h.wf).extends

/-! ## Without a failed write, flushes and writes return 0 -/

/-- A write loop that did not return 0 has a failed write at its end. -/
theorem writeSectors_ok_of_noFailedWrite (base : UInt32) (b : Block) (is : List (Fin 8)) (d : Drive)
    (h : NoFailedWrite d (writeSectors base b is d).2) : (writeSectors base b is d).1 = true := by
  obtain ⟨tr, htr, hP⟩ := h
  obtain ⟨tr', htr', hmem, -, hfail⟩ := writeSectors_trace base b is d
  have heq : tr' = tr := List.append_cancel_left (htr'.symm.trans htr)
  subst heq
  by_contra hne
  obtain ⟨x, hx, hxf⟩ := hfail (Bool.eq_false_iff.mpr hne)
  obtain ⟨i, -, ok, rfl⟩ := hmem x hx
  obtain rfl : ok = false := hxf
  exact hP _ hx _ _ rfl

theorem persist_of_noFailedWrite {s : State} (h : NoFailedWrite s.drive (persist s).2.drive) :
    (persist s).1 = 0 := by
  unfold persist at h ⊢
  split at h
  · rename_i hd
    rw [if_pos hd]
    exact rc_eq_zero_iff.mpr (writeSectors_ok_of_noFailedWrite _ _ _ _ h)
  · rename_i hd
    rw [if_neg hd]

theorem writeAt_of_noFailedWrite {s : State} {n : Slot} {pos : Nat} {d : List UInt8}
    (h : NoFailedWrite s.drive (writeAt s n pos d).2.drive) : (writeAt s n pos d).1 = 0 := by
  rw [writeAt_eq] at h ⊢
  split at h
  · rename_i hd
    rw [if_pos hd]
    have hext : Extends s.drive (writeSectors (s.records n).dataLba
        ((written s n pos d).contents n) (List.finRange 8) s.drive).2 := by
      obtain ⟨tr, htr, -⟩ := writeSectors_trace (s.records n).dataLba
        ((written s n pos d).contents n) (List.finRange 8) s.drive
      exact ⟨tr, htr, fun _ _ => trivial⟩
    have hfirst := writeSectors_ok_of_noFailedWrite (s.records n).dataLba
      ((written s n pos d).contents n) (List.finRange 8) s.drive
    cases heq : writeSectors (s.records n).dataLba ((written s n pos d).contents n)
        (List.finRange 8) s.drive with
    | mk ok drive =>
      rw [heq] at h hext hfirst
      -- A data sector that failed would be in the trace.
      cases ok with
      | false => exact absurd (hfirst h) (by simp)
      | true =>
        have hflush : Extends drive (persist { written s n pos d with drive }).2.drive :=
          Traced.extends (P := Allowed fun _ => True)
            (traced_persist { written s n pos d with drive })
        exact persist_of_noFailedWrite (h.split hext hflush).2
  · rename_i hd
    rw [if_neg hd]
    exact persist_of_noFailedWrite h

/-! ## A refused call has changed nothing -/

/-- At most a row of the cache has been refreshed. -/
def Refreshed (s s' : State) : Prop := s' = s ∨ ∃ n, s' = (refresh s n).2

section Refused

variable {s s' : State} (h : Inv s) {r : Int}
include h

theorem Inv.create_refused {p : PathArg} {type : VfsType}
    (hc : create s p.chars type = .ok (r, s')) (hr : r ≠ 0)
    (hok : NoFailedWrite s.drive s'.drive) : s' = s := by
  rw [h.wf.create_eq] at hc
  cases ht : createTarget s.records p.chars with
  | none =>
    rw [ht] at hc
    cases hc
    rfl
  | some x =>
    obtain ⟨j, k, x⟩ := x
    rw [ht] at hc
    obtain ⟨rfl, rfl⟩ := Prod.mk.inj (Except.ok.inj hc)
    exact absurd (persist_of_noFailedWrite hok) hr

theorem Inv.touch_refused {p : PathArg} (hc : vfsTouch s p.chars = .ok (r, s')) (hr : r ≠ 0)
    (hok : NoFailedWrite s.drive s'.drive) : s' = s := by
  rw [h.wf.touch_eq] at hc
  split at hc
  · cases hc
    rfl
  · exact h.create_refused hc hr hok

theorem Inv.rmdir_refused {p : PathArg} (hc : vfsRmdir s p.chars = .ok (r, s')) (hr : r ≠ 0)
    (hok : NoFailedWrite s.drive s'.drive) : s' = s := by
  rw [h.wf.rmdir_eq] at hc
  cases hn : rmdirTarget s.records p.chars with
  | none =>
    rw [hn] at hc
    cases hc
    rfl
  | some n =>
    rw [hn] at hc
    obtain ⟨rfl, rfl⟩ := Prod.mk.inj (Except.ok.inj hc)
    exact absurd (persist_of_noFailedWrite hok) hr

theorem Inv.remove_refused {p : PathArg} (hc : vfsRemove s p.chars = .ok (r, s')) (hr : r ≠ 0)
    (hok : NoFailedWrite s.drive s'.drive) : s' = s ∧ fileAt s.records p.chars = none := by
  rw [h.wf.remove_eq] at hc
  cases hn : fileAt s.records p.chars with
  | none =>
    rw [hn] at hc
    cases hc
    exact ⟨rfl, rfl⟩
  | some n =>
    rw [hn] at hc
    obtain ⟨rfl, rfl⟩ := Prod.mk.inj (Except.ok.inj hc)
    exact absurd (persist_of_noFailedWrite hok) hr

theorem Inv.write_refused {p : PathArg} {d : List UInt8} {append : Bool}
    (hc : vfsWrite s p.chars d append = .ok (r, s')) (hr : r ≠ 0)
    (hok : NoFailedWrite s.drive s'.drive) : s' = s ∧ fileAt s.records p.chars = none := by
  rw [h.wf.write_eq] at hc
  cases hn : fileAt s.records p.chars with
  | none =>
    rw [hn] at hc
    cases hc
    exact ⟨rfl, rfl⟩
  | some n =>
    rw [hn] at hc
    obtain ⟨rfl, rfl⟩ := Prod.mk.inj (Except.ok.inj hc)
    exact absurd (writeAt_of_noFailedWrite hok) hr

theorem Inv.read_refreshed {p : PathArg} {cap : UInt32} {b : Option (List UInt8)}
    (hc : vfsRead s p.chars cap = .ok (b, s')) : Refreshed s s' := by
  rw [h.wf.read_eq] at hc
  cases hn : fileAt s.records p.chars with
  | none =>
    rw [hn] at hc
    cases hc
    exact Or.inl rfl
  | some n =>
    rw [hn] at hc
    refine Or.inr ⟨n, ?_⟩
    rw [← readAt_snd s n cap]
    exact (congrArg Prod.snd (Except.ok.inj hc)).symm

/-- A file that was just created by a touch is there to be written. -/
theorem Inv.touch_unchanged {p : PathArg} (hc : vfsTouch s p.chars = .ok (r, s'))
    (hn : fileAt s'.records p.chars = none) : s' = s := by
  obtain ⟨rfl, -⟩ | ⟨-, q, x, j, k, hp, hcreate, -, heq⟩ := h.wf.touch_cases hc
  · rfl
  · have hs' : s' = (persist (s.setRecord k (newRecord .file j k x))).2 := congrArg Prod.snd heq
    have hfile : fileAt s'.records p.chars = some k := by
      rw [hs', persist_records, setRecord_records, fileAt_eq_some_iff, Function.update_self]
      exact ⟨h.wf.lookup_created hcreate .file hp, rfl⟩
    rw [hn] at hfile
    cases hfile

/-- A copy gives up after the read, in the touch or at a directory; the middle case has no edit
without a failed write, the last one none at all. -/
theorem Inv.copy_refused {src dst : PathArg} (hc : vfsCopy s src.chars dst.chars = .ok (r, s'))
    (hr : r ≠ 0) (hok : NoFailedWrite s.drive s'.drive) : Refreshed s s' := by
  rw [vfsCopy, bind_eq_ok_iff] at hc
  obtain ⟨⟨b, s₁⟩, hread, hc⟩ := hc
  have h₁ := h.read_refreshed hread
  obtain ⟨_, _, hread', hm₁⟩ := h.wf.read_micros (c := (Op.stat src).scope s.records) src 4096
  rw [hread] at hread'
  cases hread'
  have hinv₁ := hm₁.inv h
  cases b with
  | none =>
    cases hc
    exact h₁
  | some b =>
    dsimp only at hc
    rw [bind_eq_ok_iff] at hc
    obtain ⟨⟨r₂, s₂⟩, htouch, hc⟩ := hc
    obtain ⟨_, _, htouch', hm₂⟩ := hinv₁.wf.touch_micros
      (c := (Op.touch dst).scope s₁.records) dst fun _ hk => ⟨hk, hk⟩
    rw [htouch] at htouch'
    cases htouch'
    dsimp only at hc
    split at hc
    · -- the touch failed
      rename_i hr₂
      cases hc
      rw [hinv₁.touch_refused htouch hr₂ (hok.split (h.extends hm₁) (hinv₁.extends hm₂)).2]
      exact h₁
    · rw [bind_eq_ok_iff] at hc
      obtain ⟨⟨r₃, s₃⟩, hwrite, hc⟩ := hc
      have hinv₂ := hm₂.inv hinv₁
      obtain ⟨_, _, hwrite', hm₃⟩ := hinv₂.wf.write_micros
        (c := (Op.write dst b false).scope s₂.records) dst b false fun _ hn => ⟨hn, hn⟩
      rw [hwrite] at hwrite'
      cases hwrite'
      dsimp only at hc
      split at hc
      · -- the write was refused: the target is no file, so the touch had nothing to create
        rename_i hr₃
        cases hc
        have hrest := (hok.split (h.extends hm₁) ((hinv₁.extends hm₂).trans (hinv₂.extends hm₃))).2
        have hlast := (hrest.split (hinv₁.extends hm₂) (hinv₂.extends hm₃)).2
        obtain ⟨rfl, hnone⟩ := hinv₂.write_refused hwrite hr₃ hlast
        rw [hinv₁.touch_unchanged htouch hnone]
        exact h₁
      · cases hc
        exact absurd rfl hr

/-- A move gives up in its copy: what was copied can be removed. -/
theorem Inv.move_refused {src dst : PathArg} (hc : vfsMove s src.chars dst.chars = .ok (r, s'))
    (hr : r ≠ 0) (hok : NoFailedWrite s.drive s'.drive) : Refreshed s s' := by
  obtain ⟨r₁, s₁, hcopy, hm₁, hfound, hkeep⟩ := h.wf.copy_micros src dst
    (c := (Op.copy src dst).scope s.records) (fun _ hn => ⟨hn, hn⟩) fun _ => id
  simp only [vfsMove, hcopy, ok_bind] at hc
  split at hc
  · rename_i hr₁
    cases hc
    exact h.copy_refused hcopy hr₁ hok
  · rename_i hr₁
    rw [not_not] at hr₁
    have hinv₁ := hm₁.inv h
    obtain ⟨_, _, hremove', hm₂⟩ := hinv₁.wf.remove_micros
      (c := (Op.remove src).scope s₁.records) src fun _ => id
    rw [hc] at hremove'
    cases hremove'
    obtain ⟨-, hnone⟩ := hinv₁.remove_refused hc hr
      (hok.split (h.extends hm₁) (hinv₁.extends hm₂)).2
    -- The source was read, so it is a file and the remove could not be refused.
    obtain ⟨m, hm⟩ := Option.isSome_iff_exists.mp (hfound hr₁)
    rw [hkeep _ m hm] at hnone
    cases hnone

end Refused

/-- **A call that returned -1 without a failed write has at most refreshed the cache.** -/
theorem Inv.step_refused {s s' : State} (h : Inv s) {op : Op} {r : Reply}
    (hstep : step s op = .ok (r, s')) (hr : r.rc = -1) (hok : NoFailedWrite s.drive s'.drive) :
    Refreshed s s' := by
  have hne : ∀ {c : Int}, (Reply.code c).rc = -1 → c ≠ 0 := by
    rintro c hc rfl
    exact absurd hc (by decide)
  cases op with
  | mkdir p =>
    obtain ⟨c, hx, rfl⟩ := reply_eq_ok_iff.mp hstep
    exact Or.inl (h.create_refused hx (hne hr) hok)
  | rmdir p =>
    obtain ⟨c, hx, rfl⟩ := reply_eq_ok_iff.mp hstep
    exact Or.inl (h.rmdir_refused hx (hne hr) hok)
  | touch p =>
    obtain ⟨c, hx, rfl⟩ := reply_eq_ok_iff.mp hstep
    exact Or.inl (h.touch_refused hx (hne hr) hok)
  | remove p =>
    obtain ⟨c, hx, rfl⟩ := reply_eq_ok_iff.mp hstep
    exact Or.inl (h.remove_refused hx (hne hr) hok).1
  | read p cap =>
    obtain ⟨b, hx, rfl⟩ := reply_eq_ok_iff.mp hstep
    exact h.read_refreshed hx
  | write p d append =>
    obtain ⟨c, hx, rfl⟩ := reply_eq_ok_iff.mp hstep
    exact Or.inl (h.write_refused hx (hne hr) hok).1
  | copy src dst =>
    obtain ⟨c, hx, rfl⟩ := reply_eq_ok_iff.mp hstep
    exact h.copy_refused hx (hne hr) hok
  | move src dst =>
    obtain ⟨c, hx, rfl⟩ := reply_eq_ok_iff.mp hstep
    exact h.move_refused hx (hne hr) hok
  | list p max =>
    obtain ⟨es, -, hc⟩ := bind_eq_ok_iff.mp hstep
    cases hc
    exact Or.inl rfl
  | stat p =>
    obtain ⟨st, -, hc⟩ := bind_eq_ok_iff.mp hstep
    cases hc
    exact Or.inl rfl

theorem Refreshed.records {s s' : State} (h : Refreshed s s') : s'.records = s.records := by
  obtain rfl | ⟨n, rfl⟩ := h
  · rfl
  · exact refresh_records s n

theorem Refreshed.sameFiles {s s' : State} (h : Refreshed s s') (hb : s.diskBacked = true) :
    SameFiles s.calm s'.calm := by
  obtain rfl | ⟨n, rfl⟩ := h
  · exact ⟨rfl, ⟨hb, hb⟩, rfl, rfl, ⟨rfl, rfl⟩, fun _ _ _ _ => rfl⟩
  · obtain ⟨hp, hc, hs, -⟩ := refresh_frame s n
    refine ⟨refresh_records s n, ⟨hb, ?_⟩, hp, hc, ⟨rfl, rfl⟩, fun m _ _ i => ?_⟩
    · exact (refresh_diskBacked s n).trans hb
    · exact congrFun hs _

theorem Micros.records_of_not_edits {c : Scope} {s s' : State} (h : Micros c s s') {n : Slot}
    (hn : ¬ c.edits n) : s'.records n = s.records n := by
  induction h with
  | refl => rfl
  | tail _ hstep ih => rw [hstep.records_of_not_edits hn, ih]

/-- **A failed call.** In every reachable disk-backed state, whatever the drive does: if a call returns
-1 and none of its `ata_write28` calls failed, the table is as before and every sequence of queries
is answered as if the call had not been made; and even if one failed, no record outside the call's
scope (the slots its paths name, and the free slot a create takes) has changed. -/
theorem failed_call_keeps_files {d : Drive} (hd : Fresh d) {s s' : State} (hs : Reachable d s)
    (hb : s.diskBacked = true) {op : Op} {r : Reply} (hstep : step s op = .ok (r, s'))
    (hr : r.rc = -1) :
    (NoFailedWrite s.drive s'.drive → s'.records = s.records ∧
      ∀ qs : List Op, (∀ q ∈ qs, q.IsQuery) →
        replies step s'.calm qs = replies step s.calm qs) ∧
    ∀ n, ¬ (op.scope s.records).edits n → s'.records n = s.records n := by
  have hinv := hs.inv hd
  refine ⟨fun hok => ?_, fun n hn => (hinv.micros hstep).records_of_not_edits hn⟩
  have href := hinv.step_refused hstep hr hok
  refine ⟨href.records, fun qs hqs => ?_⟩
  exact (replies_eq_of_sameFiles (href.sameFiles hb) hqs).symm

/-- A drive that stores the eight sectors of the first flush and then refuses a write -/
def flakyDisk : Drive :=
  scripted (blankDisk 65536) [] (List.replicate 8 .stored ++ [.refused])

theorem fresh_flakyDisk : Fresh flakyDisk :=
  fresh_of_no_magic (show hasMagic (fun _ => 0) = false by decide)

theorem mkdir_flakyDisk : step (mount flakyDisk).2 (.mkdir pathA) = .ok (.code (-1),
    (persist ((mount flakyDisk).2.setRecord 1 (newRecord .directory 0 1 [97]))).2) := by
  have hfail : (persist ((mount flakyDisk).2.setRecord 1 (newRecord .directory 0 1 [97]))).1 = -1 := by
    rfl
  refine reply_eq_ok_iff.mpr ⟨-1, ?_, rfl⟩
  rw [vfsMkdir, (fresh_flakyDisk.inv_mount).wf.create_eq, createTarget_pathA fresh_flakyDisk]
  exact congrArg Except.ok (Prod.ext hfail rfl)

theorem diskBacked_flakyDisk : (mount flakyDisk).2.diskBacked = true := by
  rw [mount_eq, persist_diskBacked]
  rfl

theorem failed_call_keeps_files_mkdir :
    (persist ((mount flakyDisk).2.setRecord 1 (newRecord .directory 0 1 [97]))).2.records 2
      = (mount flakyDisk).2.records 2 := by
  refine (failed_call_keeps_files fresh_flakyDisk .boot diskBacked_flakyDisk mkdir_flakyDisk
    rfl).2 2 ?_
  show ¬ newSlot (mount flakyDisk).2.records pathA.chars = some 2
  rw [newSlot, createTarget_pathA fresh_flakyDisk]
  decide

/-- **A failed `mkdir` stays in memory**: the flush is refused, the call returns -1, and the new record
is in the table. -/
theorem failed_mkdir_changes_table : ∃ s',
    Reachable flakyDisk (mount flakyDisk).2 ∧ (mount flakyDisk).2.diskBacked = true ∧
    step (mount flakyDisk).2 (.mkdir pathA) = .ok (.code (-1), s') ∧
    s'.records ≠ (mount flakyDisk).2.records := by
  refine ⟨_, .boot, diskBacked_flakyDisk, mkdir_flakyDisk, ?_⟩
  rw [persist_records, setRecord_records]
  intro heq
  have hused := congrArg (fun t : Table => (t 1).used) heq
  rw [Function.update_self, mount_eq, persist_records,
    (bootState_of_fresh fresh_flakyDisk).1] at hused
  exact absurd hused (by decide)

end MinOS.Vfs
