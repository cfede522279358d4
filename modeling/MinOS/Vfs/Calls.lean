/-
# MinOS.Vfs.Calls — what a call can do, said once.

A call of the filesystem is a sequence of at most three micro-steps (`Micro`): fill a slot and flush,
clear a record and flush, refresh a row of the cache from the disk, write a file and flush. From a
well-formed table no call faults, whatever the drive does, and the state it ends in is reached by
micro-steps (`step_micros`). Every invariant of whole runs is therefore proved for the four
micro-steps and nothing else.

On the way: what `parent_and_name` and `create` compute on a well-formed table.
-/
import Mathlib.Logic.Relation
import MinOS.Vfs.Edit

namespace MinOS.Vfs

open NameTree Machine
open Bytes (chars copyStr Terminated)

/-! ## Frame facts of the helpers -/

section Frames

variable (s : State) (n : Slot)

@[simp] theorem setRecord_records (r : VfsRecord) :
    (s.setRecord n r).records = Function.update s.records n r := rfl

@[simp] theorem setRecord_drive (r : VfsRecord) : (s.setRecord n r).drive = s.drive := rfl

@[simp] theorem clearUsed_records :
    (clearUsed s n).2.records = Function.update s.records n { s.records n with used := 0 } := by
  unfold clearUsed persist; split <;> rfl

@[simp] theorem persist_records : (persist s).2.records = s.records := by
  unfold persist; split <;> rfl

@[simp] theorem persist_contents : (persist s).2.contents = s.contents := by
  unfold persist; split <;> rfl

@[simp] theorem persist_diskBacked : (persist s).2.diskBacked = s.diskBacked := by
  unfold persist; split <;> rfl

@[simp] theorem refresh_records : (refresh s n).2.records = s.records := by
  unfold refresh; split <;> rfl

@[simp] theorem refresh_diskBacked : (refresh s n).2.diskBacked = s.diskBacked := by
  unfold refresh; split <;> rfl

@[simp] theorem refresh_flushed : (refresh s n).2.flushed = s.flushed := by
  unfold refresh; split <;> rfl

@[simp] theorem refresh_generation : (refresh s n).2.generation = s.generation := by
  unfold refresh; split <;> rfl

end Frames

/-- The size a write leaves -/
def writtenSize (pos : Nat) (d : List UInt8) : UInt32 :=
  UInt32.ofNat (pos + (d.take (vfsContentMax - pos)).length)

theorem toNat_writtenSize {pos : Nat} (hpos : pos ≤ vfsContentMax) (d : List UInt8) :
    (writtenSize pos d).toNat = pos + min d.length (vfsContentMax - pos) := by
  simp only [writtenSize, List.length_take, UInt32.toNat_ofNat', vfsContentMax] at hpos ⊢
  omega

theorem writtenSize_le {pos : Nat} (hpos : pos ≤ vfsContentMax) (d : List UInt8) :
    (writtenSize pos d).toNat ≤ vfsContentMax := by
  rw [toNat_writtenSize hpos]
  omega

/-- **The bytes of a row after a write**: what was before the offset, then the data. -/
theorem take_blit (c : Block) {pos : Nat} {d : List UInt8} (h : pos + d.length ≤ 4096) :
    (List.ofFn (blit c pos d)).take (pos + d.length) = (List.ofFn c).take pos ++ d := by
  have hlen : ((List.ofFn c).take pos).length = pos := by
    simp only [List.length_take, List.length_ofFn]
    omega
  apply List.ext_getElem
  · rw [List.length_append, hlen, List.length_take, List.length_ofFn]
    omega
  · intro k hk _
    simp only [List.length_take, List.length_ofFn] at hk
    rw [List.getElem_take, List.getElem_ofFn, blit]
    by_cases hlow : k < pos
    · rw [if_neg (by dsimp only; omega), List.getElem_append_left (by omega), List.getElem_take,
        List.getElem_ofFn]
    · rw [if_pos (by dsimp only; omega), List.getElem_append_right (by omega),
        List.getD_eq_getElem _ _ (by dsimp only; omega)]
      simp only [hlen]

/-- The state after the memory half of a write -/
def written (s : State) (n : Slot) (pos : Nat) (d : List UInt8) : State :=
  (s.setContent n (blit (s.contents n) pos (d.take (vfsContentMax - pos)))).setRecord n
    { s.records n with size := writtenSize pos d }

@[simp] theorem written_records (s : State) (n : Slot) (pos : Nat) (d : List UInt8) :
    (written s n pos d).records
      = Function.update s.records n { s.records n with size := writtenSize pos d } := rfl

@[simp] theorem written_contents (s : State) (n : Slot) (pos : Nat) (d : List UInt8) :
    (written s n pos d).contents
      = Function.update s.contents n (blit (s.contents n) pos (d.take (vfsContentMax - pos))) := rfl

@[simp] theorem written_drive (s : State) (n : Slot) (pos : Nat) (d : List UInt8) :
    (written s n pos d).drive = s.drive := rfl

/-- **The bytes of a file after a write**: what was before the offset, then the data, cut to fit. -/
theorem take_written (s : State) (n : Slot) {pos : Nat} (hpos : pos ≤ vfsContentMax)
    (d : List UInt8) :
    (List.ofFn ((written s n pos d).contents n)).take ((written s n pos d).records n).size.toNat
      = (List.ofFn (s.contents n)).take pos ++ d.take (vfsContentMax - pos) := by
  have hlen : (d.take (vfsContentMax - pos)).length = min d.length (vfsContentMax - pos) := by
    rw [List.length_take, Nat.min_comm]
  have hsize : ((written s n pos d).records n).size = writtenSize pos d := by
    rw [written_records, Function.update_self]
  rw [hsize, written_contents, Function.update_self, toNat_writtenSize hpos, ← hlen]
  apply take_blit
  rw [hlen]
  change pos ≤ 4096 at hpos
  show pos + min d.length (4096 - pos) ≤ 4096
  omega

/-- The same, said of the whole file and the whole data -/
theorem take_append_row (c : Block) {size : Nat} (h : size ≤ vfsContentMax) (d : List UInt8) :
    ((List.ofFn c).take size ++ d).take vfsContentMax
      = (List.ofFn c).take size ++ d.take (vfsContentMax - size) := by
  have hlen : ((List.ofFn c).take size).length = size := by
    rw [List.length_take, List.length_ofFn]
    exact Nat.min_eq_left h
  rw [List.take_append, hlen, List.take_of_length_le (by rw [hlen]; exact h)]

/-- A write: memory, then the 8 data sectors if there is a disk, then the flush. -/
theorem writeAt_eq (s : State) (n : Slot) (pos : Nat) (d : List UInt8) :
    writeAt s n pos d =
      if s.diskBacked then
        match writeSectors (s.records n).dataLba ((written s n pos d).contents n)
            (List.finRange 8) s.drive with
        | (true, drive) => persist { written s n pos d with drive }
        | (false, drive) => (-1, { written s n pos d with drive })
      else persist (written s n pos d) := by
  have hlba : ((written s n pos d).records n).dataLba = (s.records n).dataLba := by
    rw [written_records, Function.update_self]
  rw [← hlba]
  rfl

@[simp] theorem writeAt_records (s : State) (n : Slot) (pos : Nat) (d : List UInt8) :
    (writeAt s n pos d).2.records
      = Function.update s.records n { s.records n with size := writtenSize pos d } := by
  rw [writeAt_eq]
  split
  · split <;> simp
  · simp

/-! ## Micro-steps -/

/-- The slots a call may touch -/
structure Scope where
  /-- Its record may change. -/
  edits : Slot → Prop
  /-- It may be filled with a new file. -/
  files : Slot → Prop
  /-- Its data sectors may be written. -/
  data : Slot → Prop

/-- The steps calls are made of, within a scope -/
inductive Micro (c : Scope) (s : State) : State → Prop
  | create {q : List (List UInt8)} {x : List UInt8} {j k : Slot} (type : VfsType)
      (h : Creatable s.records q x j k) (hk : c.edits k) (hfile : type = .file → c.files k) :
      Micro c s (persist (s.setRecord k (newRecord type j k x))).2
  | clear {n : Slot} (h : Clearable s.records n) (hn : c.edits n) : Micro c s (clearUsed s n).2
  | refresh {n : Slot} (h : Writable s.records n) : Micro c s (refresh s n).2
  | write {n : Slot} {pos : Nat} (d : List UInt8) (h : Writable s.records n)
      (hpos : pos ≤ vfsContentMax) (hn : c.edits n) (hdata : c.data n) :
      Micro c s (writeAt s n pos d).2

/-- Any number of micro-steps -/
abbrev Micros (c : Scope) : State → State → Prop := Relation.ReflTransGen (Micro c)

/-- A micro-step edits the table once, or not at all. -/
theorem Micro.edit {c : Scope} {s s' : State} (h : Micro c s s') :
    s'.records = s.records ∨ Edit s.records s'.records := by
  cases h with
  | create type h => exact Or.inr (by simpa using Edit.create type h)
  | clear h => exact Or.inr (by simpa using Edit.clear h)
  | refresh h => exact Or.inl (by simp)
  | write d h hpos => exact Or.inr (by simpa using Edit.resize h (writtenSize_le hpos d))

theorem Micro.wf {c : Scope} {s s' : State} (h : Micro c s s') (hwf : Wf s.records) :
    Wf s'.records := by
  rcases h.edit with he | he
  · rwa [he]
  · exact he.wf hwf

theorem Micros.wf {c : Scope} {s s' : State} (h : Micros c s s') (hwf : Wf s.records) :
    Wf s'.records := by
  induction h with
  | refl => exact hwf
  | tail _ hstep ih => exact hstep.wf ih

/-- Records outside the scope stay as they were. -/
theorem Micro.records_of_not_edits {c : Scope} {s s' : State} (h : Micro c s s') {n : Slot}
    (hn : ¬ c.edits n) : s'.records n = s.records n := by
  have hne : ∀ {k : Slot}, c.edits k → n ≠ k := by
    rintro k hk rfl
    exact hn hk
  cases h with
  | create type h hk => rw [persist_records, setRecord_records, Function.update_of_ne (hne hk)]
  | clear h hk => rw [clearUsed_records, Function.update_of_ne (hne hk)]
  | refresh h => rw [refresh_records]
  | write d h hpos hk => rw [writeAt_records, Function.update_of_ne (hne hk)]

/-! ## `parent_and_name` -/

theorem lastSlash_append_of_notMem {x : List UInt8} (hx : slash ∉ x) (a : List UInt8) :
    ∀ i split, lastSlash (a ++ x) i split = lastSlash a i split := by
  have hrest : ∀ (x : List UInt8) (i split : Nat), slash ∉ x → lastSlash x i split = split := by
    intro x
    induction x with
    | nil => intro i split _; rfl
    | cons c cs ih =>
      intro i split hc
      rw [lastSlash, if_neg (fun he => hc (by simp [he])), ih _ _ fun h => hc (by simp [h])]
  induction a with
  | nil => intro i split; exact hrest x i split hx
  | cons c cs ih => intro i split; rw [List.cons_append, lastSlash, lastSlash, ih]

theorem lastSlash_concat_slash (a : List UInt8) :
    ∀ i split, lastSlash (a ++ [slash]) i split = i + a.length := by
  induction a with
  | nil => intro i split; simp [lastSlash]
  | cons c cs ih =>
    intro i split
    rw [List.cons_append, lastSlash, ih, List.length_cons]
    omega

theorem Canonical.dropLast {q : List (List UInt8)} {x : List UInt8} (h : Canonical (q ++ [x])) :
    Canonical q := by
  refine ⟨fun y hy => h.good y (by simp [hy]), ?_, joinParts_length_mono.trans h.length_le⟩
  have := h.depth_le
  simp only [List.length_append, List.length_singleton] at this
  omega

theorem one_lt_length_joinParts {q : List (List UInt8)} (hq : q ≠ [])
    (hgood : ∀ x ∈ q, GoodName x) : 1 < (joinParts q).length := by
  have hne : 1 ≠ (joinParts q).length := by
    intro h1
    have hroot : joinParts q = [slash] := by
      obtain ⟨c, hc⟩ := List.length_eq_one_iff.mp h1.symm
      have := head?_joinParts q
      rw [hc] at this ⊢
      simpa using this
    exact hq ((joinParts_eq_root_iff hgood).mp hroot)
  have h0 : (joinParts q).length ≠ 0 := by simpa using joinParts_ne_nil q
  omega

theorem joinParts_concat_of_ne_nil {q : List (List UInt8)} (hq : q ≠ [])
    (hgood : ∀ x ∈ q, GoodName x) (x : List UInt8) :
    joinParts (q ++ [x]) = joinParts q ++ slash :: x := by
  rw [joinParts_concat, joinPart, if_pos (one_lt_length_joinParts hq hgood)]
  simp

/-- Where `parent_and_name` cuts a canonical path: before the last name. -/
theorem lastSlash_joinParts {q : List (List UInt8)} {x : List UInt8} (h : Canonical (q ++ [x])) :
    lastSlash (joinParts (q ++ [x])).tail 1 0 = if q = [] then 0 else (joinParts q).length := by
  have hx := h.good x (by simp)
  by_cases hq : q = []
  · -- a child of the root: there is no slash after the first character
    subst hq
    simpa [joinParts, joinPart, lastSlash] using lastSlash_append_of_notMem hx.slash_notMem [] 1 0
  · have htail : (joinParts (q ++ [x])).tail = ((joinParts q).tail ++ [slash]) ++ x := by
      rw [joinParts_concat_of_ne_nil hq h.dropLast.good,
        List.tail_append_of_ne_nil (joinParts_ne_nil q)]
      simp
    have h0 : (joinParts q).length ≠ 0 := by simpa using joinParts_ne_nil q
    rw [if_neg hq, htail, lastSlash_append_of_notMem hx.slash_notMem, lastSlash_concat_slash,
      List.length_tail]
    omega

/-- The two halves `parent_and_name` cuts a canonical path into -/
theorem split_joinParts {q : List (List UInt8)} {x : List UInt8} (h : Canonical (q ++ [x])) :
    let split := lastSlash (joinParts (q ++ [x])).tail 1 0
    (joinParts (q ++ [x])).drop (if split = 0 then 1 else split + 1) = x ∧
      (if split = 0 then [slash] else (joinParts (q ++ [x])).take split) = joinParts q := by
  intro split
  have hsplit : split = if q = [] then 0 else (joinParts q).length := lastSlash_joinParts h
  by_cases hq : q = []
  · subst hq
    rw [if_pos rfl] at hsplit
    simp [hsplit, joinParts, joinPart]
  · have h0 : (joinParts q).length ≠ 0 := by simpa using joinParts_ne_nil q
    rw [if_neg hq] at hsplit
    rw [hsplit, if_neg h0, if_neg h0, joinParts_concat_of_ne_nil hq h.dropLast.good]
    constructor
    · rw [← List.drop_drop]
      simp
    · simp

section ParentAndName

variable {t : Table} {p : PathArg}

/-- On a path that is not the root, `parent_and_name` looks up all but the last name. -/
theorem parentAndName_concat {q : List (List UInt8)} {x : List UInt8}
    (hp : canon p.chars = some (q ++ [x])) :
    parentAndName t p.chars = (find t (joinParts q) >>= fun r =>
      match r with
      | none => .ok none
      | some j =>
        if (t j).type = VfsType.directory.code then .ok (some (j, x)) else .ok none) := by
  have hc := canonical_of_canon hp
  have hroot : joinParts (q ++ [x]) ≠ [slash] := by
    rw [Ne, joinParts_eq_root_iff hc.good]
    simp
  obtain ⟨hname, hparent⟩ := split_joinParts hc
  have hx : x.take vfsNameMax = x := List.take_of_length_le (hc.good x (by simp)).length_le
  rw [parentAndName, normalizeRoot_eq, ok_bind, hp, Option.map_some]
  dsimp only
  rewrite [if_neg hroot, hname, hparent, hx]
  rfl

theorem Wf.parentAndName_concat (h : Wf t) {q : List (List UInt8)} {x : List UInt8}
    (hp : canon p.chars = some (q ++ [x])) :
    parentAndName t p.chars = .ok ((resolve t q).bind fun j =>
      if (t j).type = VfsType.directory.code then some (j, x) else none) := by
  rw [Vfs.parentAndName_concat hp, h.find_joinParts (canonical_of_canon hp).dropLast, ok_bind]
  cases resolve t q with
  | none => rfl
  | some j =>
    simp only [Option.bind_some]
    split <;> rfl

end ParentAndName

/-! ## `create` -/

/-- The parent, the slot and the name `create` arrives at, if it gets there -/
def createTarget (t : Table) (path : List UInt8) : Option (Slot × Slot × List UInt8) :=
  match canon path with
  | none => none
  | some c =>
    if (resolve t c).isSome then none
    else (resolve t c.dropLast).bind fun j =>
      if (t j).type = VfsType.directory.code then
        (freeSlot t).map fun k => (j, k, c.getLast?.getD [])
      else none

/-- The slot `create` fills, if it gets there -/
def newSlot (t : Table) (path : List UInt8) : Option Slot := (createTarget t path).map fun x => x.2.1

@[simp] theorem resolve_nil (t : Table) : resolve t [] = some 0 := rfl

theorem createTarget_concat {t : Table} {path : List UInt8} {q : List (List UInt8)} {x : List UInt8}
    (hp : canon path = some (q ++ [x])) (habsent : resolve t (q ++ [x]) = none) :
    createTarget t path = (resolve t q).bind fun j =>
      if (t j).type = VfsType.directory.code then (freeSlot t).map fun k => (j, k, x) else none := by
  simp [createTarget, hp, habsent]

theorem creatable_of_createTarget {t : Table} {p : PathArg} {j k : Slot} {x : List UInt8}
    (ht : createTarget t p.chars = some (j, k, x)) :
    ∃ q, canon p.chars = some (q ++ [x]) ∧ Creatable t q x j k := by
  cases hp : canon p.chars with
  | none => simp [createTarget, hp] at ht
  | some c =>
    rcases List.eq_nil_or_concat' c with rfl | ⟨q, y, rfl⟩
    · simp [createTarget, hp] at ht
    · cases habsent : resolve t (q ++ [y]) with
      | some i => simp [createTarget, hp, habsent] at ht
      | none =>
        rw [createTarget_concat hp habsent, Option.bind_eq_some_iff] at ht
        obtain ⟨m, hm, ht⟩ := ht
        split at ht
        · rename_i hdir
          obtain ⟨l, hl, heq⟩ := Option.map_eq_some_iff.mp ht
          cases heq
          exact ⟨q, rfl, hm, hdir, habsent, canonical_of_canon hp, hl⟩
        · cases ht

section Create

variable {s : State} (h : Wf s.records)
include h

/-- **`create` on a well-formed table.** -/
theorem Wf.create_eq (p : PathArg) (type : VfsType) :
    create s p.chars type = .ok (match createTarget s.records p.chars with
      | none => (-1, s)
      | some (j, k, x) => persist (s.setRecord k (newRecord type j k x))) := by
  rw [create, h.find_eq, ok_bind, lookup]
  cases hp : canon p.chars with
  | none =>
    rw [parentAndName, normalizeRoot_eq, hp]
    simp [createTarget, hp]
  | some c =>
    simp only [Option.bind_some]
    cases hc : resolve s.records c with
    | some i => simp [createTarget, hp, hc]
    | none =>
      rcases List.eq_nil_or_concat' c with rfl | ⟨q, x, rfl⟩
      · simp at hc
      · have hx := (canonical_of_canon hp).good x (by simp)
        simp only [h.parentAndName_concat hp, ok_bind, createTarget_concat hp hc]
        cases resolve s.records q with
        | none => rfl
        | some j =>
          by_cases hdir : (s.records j).type = VfsType.directory.code
          · simp only [Option.bind_some, if_pos hdir, if_neg hx.ne_nil]
            cases freeSlot s.records <;> rfl
          · simp only [Option.bind_some, if_neg hdir]

theorem Wf.create_micros (p : PathArg) (type : VfsType) {c : Scope}
    (hc : ∀ k, newSlot s.records p.chars = some k → c.edits k ∧ (type = .file → c.files k)) :
    ∃ r s', create s p.chars type = .ok (r, s') ∧ Micros c s s' := by
  rw [h.create_eq]
  split
  · exact ⟨_, _, rfl, .refl⟩
  · rename_i j k x ht
    obtain ⟨q, -, hcreate⟩ := creatable_of_createTarget ht
    obtain ⟨hk, hfile⟩ := hc k (by rw [newSlot, ht]; rfl)
    exact ⟨_, _, rfl, .single (.create type hcreate hk hfile)⟩

end Create

/-! ## The other operations -/

/-- The file a path names -/
def fileAt (t : Table) (path : List UInt8) : Option Slot :=
  (lookup t path).filter fun n => (t n).type = VfsType.file.code

/-- The directory `rmdir` clears, if it gets there -/
def rmdirTarget (t : Table) (path : List UInt8) : Option Slot :=
  (lookup t path).filter fun n =>
    n ≠ 0 ∧ (t n).type = VfsType.directory.code ∧ ¬ slots.any (isChildOf t n) = true

/-- What `vfs_read` returns and leaves when the path names file `n` -/
def readAt (s : State) (n : Slot) (cap : UInt32) : Option (List UInt8) × State :=
  match refresh s n with
  | (false, s) => (none, s)
  | (true, s) =>
    (some ((List.ofFn (s.contents n)).take (min (s.records n).size.toNat cap.toNat)), s)

theorem readAt_snd (s : State) (n : Slot) (cap : UInt32) : (readAt s n cap).2 = (refresh s n).2 := by
  rw [readAt]
  split <;> rename_i heq <;> rw [heq]

theorem readAt_fst_of_fail {s : State} {n : Slot} {cap : UInt32} (h : (refresh s n).1 = false) :
    (readAt s n cap).1 = none := by
  rw [readAt]
  cases hr : refresh s n with
  | mk ok s' =>
    rw [hr] at h
    cases h
    rfl

/-- Where a write starts -/
def writePos (t : Table) (n : Slot) (append : Bool) : Nat := if append then (t n).size.toNat else 0

theorem fileAt_eq_some_iff {t : Table} {path : List UInt8} {n : Slot} :
    fileAt t path = some n ↔ lookup t path = some n ∧ (t n).type = VfsType.file.code := by
  simp [fileAt, Option.filter_eq_some_iff]

theorem rmdirTarget_eq_some_iff {t : Table} {path : List UInt8} {n : Slot} :
    rmdirTarget t path = some n ↔ lookup t path = some n ∧ n ≠ 0 ∧
      (t n).type = VfsType.directory.code ∧ ¬ slots.any (isChildOf t n) = true := by
  simp only [rmdirTarget, Option.filter_eq_some_iff, decide_eq_true_eq]

/-- A call whose result and state come out of one function -/
theorem reply_eq_ok_iff {β : Type} {f : β → Reply} {x : Except Fault (β × State)} {r : Reply}
    {s' : State} : (x >>= fun a => pure (a.map f id)) = Except.ok (ε := Fault) (r, s') ↔
      ∃ b, x = .ok (b, s') ∧ r = f b := by
  rw [bind_eq_ok_iff]
  constructor
  · rintro ⟨⟨b, s₁⟩, rfl, h⟩
    cases h
    exact ⟨b, rfl, rfl⟩
  · rintro ⟨b, rfl, rfl⟩
    exact ⟨_, rfl, rfl⟩

/-- A create or a resize takes no path away. -/
theorem lookup_mono {t t' : Table} (hwf : Wf t) (hwf' : Wf t')
    (hpath : ∀ i p, (links t).Path i p → (links t').Path i p) {path : List UInt8} {n : Slot}
    (hn : lookup t path = some n) : lookup t' path = some n := by
  obtain ⟨c, hc, hr⟩ := Option.bind_eq_some_iff.mp hn
  rw [lookup, hc, Option.bind_some, hwf'.resolve_eq_some_iff]
  exact hpath n c (hwf.resolve_eq_some_iff.mp hr)

section Targets

variable {t : Table} (h : Wf t)
include h

theorem Wf.used_of_lookup {path : List UInt8} {n : Slot} (hn : lookup t path = some n) :
    (t n).used ≠ 0 := by
  obtain ⟨c, -, hc⟩ := Option.bind_eq_some_iff.mp hn
  exact h.path_used (h.resolve_eq_some_iff.mp hc)

theorem Wf.writable_of_fileAt {path : List UInt8} {n : Slot} (hn : fileAt t path = some n) :
    Writable t n := by
  obtain ⟨hl, hf⟩ := fileAt_eq_some_iff.mp hn
  exact ⟨h.used_of_lookup hl, hf⟩

/-- What `rmdir` has checked when it clears -/
theorem Wf.clearable_of_rmdirTarget {path : List UInt8} {n : Slot}
    (hn : rmdirTarget t path = some n) : Clearable t n := by
  obtain ⟨hl, hn0, -, hany⟩ := rmdirTarget_eq_some_iff.mp hn
  refine ⟨hn0, h.used_of_lookup hl, fun i hi hui hpar => hany ?_⟩
  rw [List.any_eq_true]
  exact ⟨i, mem_slots.mpr hi, by simp [isChildOf, hui, hpar]⟩

theorem Wf.ne_root_of_writable {n : Slot} (hw : Writable t n) : n ≠ 0 := by
  rintro rfl
  have := hw.file
  rw [h.root_type] at this
  exact absurd this (by decide)

theorem Wf.clearable_of_writable {n : Slot} (hw : Writable t n) : Clearable t n :=
  h.clearable_file (h.ne_root_of_writable hw) hw.used hw.file

theorem Wf.writePos_le {n : Slot} (hw : Writable t n) (append : Bool) :
    writePos t n append ≤ vfsContentMax := by
  unfold writePos
  split
  · exact h.size n hw.used
  · exact Nat.zero_le _

/-! ### After an edit -/

theorem Wf.lookup_create {q : List (List UInt8)} {x : List UInt8} {j k : Slot}
    (hc : Creatable t q x j k) (type : VfsType) {path : List UInt8} {n : Slot}
    (hn : lookup t path = some n) :
    lookup (Function.update t k (newRecord type j k x)) path = some n :=
  lookup_mono h (hc.wf h type) (fun _ _ hp => (hc.path_iff h type).mpr (Or.inl hp)) hn

theorem Wf.lookup_created {q : List (List UInt8)} {x : List UInt8} {j k : Slot}
    (hc : Creatable t q x j k) (type : VfsType) {path : List UInt8}
    (hp : canon path = some (q ++ [x])) :
    lookup (Function.update t k (newRecord type j k x)) path = some k := by
  rw [lookup, hp, Option.bind_some, (hc.wf h type).resolve_eq_some_iff]
  exact (hc.path_iff h type).mpr (Or.inr ⟨rfl, rfl⟩)

/-- A file is still that file after a create … -/
theorem Wf.fileAt_create {q : List (List UInt8)} {x : List UInt8} {j k : Slot}
    (hc : Creatable t q x j k) (type : VfsType) {path : List UInt8} {n : Slot}
    (hn : fileAt t path = some n) :
    fileAt (Function.update t k (newRecord type j k x)) path = some n := by
  have hw := h.writable_of_fileAt hn
  have hnk : n ≠ k := by
    rintro rfl
    exact hw.used hc.free
  rw [fileAt_eq_some_iff, Function.update_of_ne hnk]
  exact ⟨h.lookup_create hc type (fileAt_eq_some_iff.mp hn).1, hw.file⟩

/-- … and after a resize. -/
theorem Wf.fileAt_resize {m : Slot} {size : UInt32} (hw : Writable t m)
    (hsize : size.toNat ≤ vfsContentMax) {path : List UInt8} {n : Slot}
    (hn : fileAt t path = some n) :
    fileAt (Function.update t m { t m with size }) path = some n := by
  obtain ⟨hl, hf⟩ := fileAt_eq_some_iff.mp hn
  rw [fileAt_eq_some_iff, resize_apply]
  exact ⟨lookup_mono h (hw.wf h hsize) (fun _ _ hp => by rw [links_resize]; exact hp) hl, hf⟩

end Targets

section Operations

variable {s : State} (h : Wf s.records)
include h

theorem Wf.touch_eq (p : PathArg) :
    vfsTouch s p.chars = if (lookup s.records p.chars).isSome then .ok (0, s)
      else create s p.chars .file := by
  rw [vfsTouch, h.find_eq, ok_bind]
  cases lookup s.records p.chars <;> rfl

theorem Wf.rmdir_eq (p : PathArg) :
    vfsRmdir s p.chars = .ok (match rmdirTarget s.records p.chars with
      | none => (-1, s)
      | some n => clearUsed s n) := by
  rw [vfsRmdir, h.find_eq, ok_bind, rmdirTarget]
  cases lookup s.records p.chars with
  | none => rfl
  | some n =>
    dsimp only
    by_cases hkind : n = 0 ∨ (s.records n).type ≠ VfsType.directory.code
    · rw [if_pos hkind, Option.filter_some_neg]
      rw [decide_eq_false_iff_not]
      rintro ⟨hn, htype, -⟩
      exact hkind.elim hn (absurd htype)
    · rw [if_neg hkind]
      rw [not_or, not_not] at hkind
      by_cases hany : slots.any (isChildOf s.records n) = true
      · rw [if_pos hany, Option.filter_some_neg (by simp [hany])]
      · rw [if_neg hany, Option.filter_some_pos (by
          rw [decide_eq_true_eq]
          exact ⟨hkind.1, hkind.2, hany⟩)]

/-- The root is no file, so the test `n <= 0` of `vfs_remove` adds nothing. -/
theorem Wf.remove_eq (p : PathArg) :
    vfsRemove s p.chars = .ok (match fileAt s.records p.chars with
      | none => (-1, s)
      | some n => clearUsed s n) := by
  rw [vfsRemove, h.find_eq, ok_bind, fileAt]
  cases hl : lookup s.records p.chars with
  | none => rfl
  | some n =>
    dsimp only
    by_cases hfile : (s.records n).type = VfsType.file.code
    · have hn := h.ne_root_of_writable ⟨h.used_of_lookup hl, hfile⟩
      rw [if_neg (by simp [hn, hfile]), Option.filter_some_pos (by simpa using hfile)]
    · rw [if_pos (Or.inr hfile), Option.filter_some_neg (by simpa using hfile)]

/-- A read never reaches past a row of the cache: sizes are bounded. -/
theorem Wf.read_eq (p : PathArg) (cap : UInt32) :
    vfsRead s p.chars cap = .ok (match fileAt s.records p.chars with
      | none => (none, s)
      | some n => readAt s n cap) := by
  rw [vfsRead, h.find_eq, ok_bind, fileAt]
  cases hl : lookup s.records p.chars with
  | none => rfl
  | some n =>
    dsimp only
    by_cases hfile : (s.records n).type = VfsType.file.code
    · rw [if_neg (not_not.mpr hfile), Option.filter_some_pos (by simpa using hfile)]
      dsimp only [readAt]
      have hrec : (refresh s n).2.records = s.records := refresh_records s n
      cases hr : refresh s n with
      | mk ok s' =>
        rw [hr] at hrec
        cases ok with
        | false => rfl
        | true =>
          have hwant : min (s'.records n).size.toNat cap.toNat ≤ vfsContentMax := by
            refine (Nat.min_le_left _ _).trans ?_
            rw [show s'.records = s.records from hrec]
            exact h.size n (h.used_of_lookup hl)
          exact if_pos hwant
    · rw [if_pos hfile, Option.filter_some_neg (by simpa using hfile)]

/-- The offset check of `vfs_write` always passes: sizes are bounded. -/
theorem Wf.write_eq (p : PathArg) (d : List UInt8) (append : Bool) :
    vfsWrite s p.chars d append = .ok (match fileAt s.records p.chars with
      | none => (-1, s)
      | some n => writeAt s n (writePos s.records n append) d) := by
  rw [vfsWrite, h.find_eq, ok_bind, fileAt]
  cases hl : lookup s.records p.chars with
  | none => rfl
  | some n =>
    dsimp only
    by_cases hfile : (s.records n).type = VfsType.file.code
    · have hpos := h.writePos_le ⟨h.used_of_lookup hl, hfile⟩ append
      rw [if_neg (not_not.mpr hfile), Option.filter_some_pos (by simpa using hfile)]
      exact if_neg (Nat.not_lt.mpr hpos)
    · rw [if_pos hfile, Option.filter_some_neg (by simpa using hfile)]

/-- **What a touch can do**: the path was there, or `create` gave up, or it filled a slot. -/
theorem Wf.touch_cases {p : PathArg} {r : Int} {s' : State}
    (ht : vfsTouch s p.chars = .ok (r, s')) :
    (s' = s ∧ r = if (lookup s.records p.chars).isSome then 0 else -1) ∨
    (lookup s.records p.chars = none ∧ ∃ q x j k, canon p.chars = some (q ++ [x]) ∧
      Creatable s.records q x j k ∧ newSlot s.records p.chars = some k ∧
      (r, s') = persist (s.setRecord k (newRecord .file j k x))) := by
  rw [h.touch_eq] at ht
  cases hl : lookup s.records p.chars with
  | some n =>
    rw [hl] at ht
    cases ht
    exact Or.inl ⟨rfl, rfl⟩
  | none =>
    rw [hl, if_neg (by simp), h.create_eq] at ht
    cases hc : createTarget s.records p.chars with
    | none =>
      rw [hc] at ht
      cases ht
      exact Or.inl ⟨rfl, rfl⟩
    | some x =>
      obtain ⟨j, k, x⟩ := x
      rw [hc] at ht
      obtain ⟨q, hp, hcreate⟩ := creatable_of_createTarget hc
      exact Or.inr ⟨rfl, q, x, j, k, hp, hcreate, by rw [newSlot, hc]; rfl,
        (Except.ok.inj ht).symm⟩

theorem Wf.read_records {p : PathArg} {cap : UInt32} {b : Option (List UInt8)} {s' : State}
    (hr : vfsRead s p.chars cap = .ok (b, s')) : s'.records = s.records := by
  rw [h.read_eq] at hr
  cases hn : fileAt s.records p.chars with
  | none =>
    rw [hn] at hr
    cases hr
    rfl
  | some n =>
    rw [hn] at hr
    have hs' : (readAt s n cap).2 = s' := congrArg Prod.snd (Except.ok.inj hr)
    rw [← hs', readAt_snd, refresh_records]

theorem Wf.fileAt_of_touch {p : PathArg} {r : Int} {s' : State}
    (ht : vfsTouch s p.chars = .ok (r, s')) {path : List UInt8} {n : Slot}
    (hn : fileAt s.records path = some n) : fileAt s'.records path = some n := by
  obtain ⟨rfl, -⟩ | ⟨-, q, x, j, k, -, hc, -, heq⟩ := h.touch_cases ht
  · exact hn
  · rw [show s' = (persist (s.setRecord k (newRecord .file j k x))).2 from congrArg Prod.snd heq,
      persist_records]
    exact h.fileAt_create hc .file hn

theorem Wf.fileAt_of_write {p : PathArg} {d : List UInt8} {append : Bool} {r : Int} {s' : State}
    (hw : vfsWrite s p.chars d append = .ok (r, s')) {path : List UInt8} {n : Slot}
    (hn : fileAt s.records path = some n) : fileAt s'.records path = some n := by
  rw [h.write_eq] at hw
  cases hm : fileAt s.records p.chars with
  | none =>
    rw [hm] at hw
    cases hw
    exact hn
  | some m =>
    rw [hm] at hw
    have hwr := h.writable_of_fileAt hm
    rw [show s' = (writeAt s m (writePos s.records m append) d).2 from
      (congrArg Prod.snd (Except.ok.inj hw)).symm, writeAt_records]
    exact h.fileAt_resize hwr (writtenSize_le (h.writePos_le hwr append) d) hn

/-- The file a copy writes was the target before, or is the new one. -/
theorem Wf.fileAt_touched {p : PathArg} {r : Int} {s' : State}
    (ht : vfsTouch s p.chars = .ok (r, s')) {n : Slot} (hn : fileAt s'.records p.chars = some n) :
    fileAt s.records p.chars = some n ∨ newSlot s.records p.chars = some n := by
  obtain ⟨rfl, -⟩ | ⟨-, q, x, j, k, hp, hc, hk, heq⟩ := h.touch_cases ht
  · exact Or.inl hn
  · rw [show s' = (persist (s.setRecord k (newRecord .file j k x))).2 from congrArg Prod.snd heq,
      persist_records] at hn
    have hl := (fileAt_eq_some_iff.mp hn).1
    rw [setRecord_records, h.lookup_created hc .file hp] at hl
    rw [← Option.some.inj hl]
    exact Or.inr hk

/-! ## Calls as micro-steps -/

variable {c : Scope}

theorem Wf.touch_micros (p : PathArg)
    (hc : ∀ k, newSlot s.records p.chars = some k → c.edits k ∧ c.files k) :
    ∃ r s', vfsTouch s p.chars = .ok (r, s') ∧ Micros c s s' := by
  rw [h.touch_eq]
  split
  · exact ⟨_, _, rfl, .refl⟩
  · exact h.create_micros p .file fun k hk => ⟨(hc k hk).1, fun _ => (hc k hk).2⟩

theorem Wf.rmdir_micros (p : PathArg) (hc : ∀ n, lookup s.records p.chars = some n → c.edits n) :
    ∃ r s', vfsRmdir s p.chars = .ok (r, s') ∧ Micros c s s' := by
  rw [h.rmdir_eq]
  cases hn : rmdirTarget s.records p.chars with
  | none => exact ⟨_, _, rfl, .refl⟩
  | some n =>
    exact ⟨_, _, rfl, .single (.clear (h.clearable_of_rmdirTarget hn)
      (hc n (rmdirTarget_eq_some_iff.mp hn).1))⟩

theorem Wf.remove_micros (p : PathArg) (hc : ∀ n, lookup s.records p.chars = some n → c.edits n) :
    ∃ r s', vfsRemove s p.chars = .ok (r, s') ∧ Micros c s s' := by
  rw [h.remove_eq]
  cases hn : fileAt s.records p.chars with
  | none => exact ⟨_, _, rfl, .refl⟩
  | some n =>
    exact ⟨_, _, rfl, .single (.clear (h.clearable_of_writable (h.writable_of_fileAt hn))
      (hc n (fileAt_eq_some_iff.mp hn).1))⟩

theorem Wf.read_micros (p : PathArg) (cap : UInt32) :
    ∃ r s', vfsRead s p.chars cap = .ok (r, s') ∧ Micros c s s' := by
  rw [h.read_eq]
  cases hn : fileAt s.records p.chars with
  | none => exact ⟨_, _, rfl, .refl⟩
  | some n =>
    refine ⟨(readAt s n cap).1, (readAt s n cap).2, rfl, ?_⟩
    rw [readAt_snd]
    exact .single (.refresh (h.writable_of_fileAt hn))

theorem Wf.write_micros (p : PathArg) (d : List UInt8) (append : Bool)
    (hc : ∀ n, fileAt s.records p.chars = some n → c.edits n ∧ c.data n) :
    ∃ r s', vfsWrite s p.chars d append = .ok (r, s') ∧ Micros c s s' := by
  rw [h.write_eq]
  cases hn : fileAt s.records p.chars with
  | none => exact ⟨_, _, rfl, .refl⟩
  | some n =>
    have hw := h.writable_of_fileAt hn
    exact ⟨_, _, rfl, .single (.write d hw (h.writePos_le hw append) (hc n hn).1 (hc n hn).2)⟩

/-- A copy refreshes, perhaps creates, perhaps writes; and no file disappears. -/
theorem Wf.copy_micros (src dst : PathArg)
    (hc : ∀ n, fileAt s.records dst.chars = some n ∨ newSlot s.records dst.chars = some n →
      c.edits n ∧ c.data n)
    (hnew : ∀ k, newSlot s.records dst.chars = some k → c.files k) :
    ∃ r s', vfsCopy s src.chars dst.chars = .ok (r, s') ∧ Micros c s s' ∧
      (r = 0 → (fileAt s.records src.chars).isSome) ∧
      ∀ path n, fileAt s.records path = some n → fileAt s'.records path = some n := by
  obtain ⟨b, s₁, hread, h₁⟩ := h.read_micros (c := c) src 4096
  have hrec₁ := h.read_records hread
  have hsrc : b.isSome → (fileAt s.records src.chars).isSome := by
    intro hb
    rw [h.read_eq] at hread
    cases hn : fileAt s.records src.chars with
    | none =>
      rw [hn] at hread
      cases hread
      cases hb
    | some n => rfl
  rw [vfsCopy, hread, ok_bind]
  cases b with
  | none => exact ⟨_, _, rfl, h₁, by simp, by rw [hrec₁]; exact fun _ _ => id⟩
  | some b =>
    have hwf₁ := h₁.wf h
    obtain ⟨r₂, s₂, htouch, h₂⟩ := hwf₁.touch_micros (c := c) dst fun k hk => by
      rw [hrec₁] at hk
      exact ⟨(hc k (Or.inr hk)).1, hnew k hk⟩
    have hkeep₂ : ∀ path n, fileAt s.records path = some n → fileAt s₂.records path = some n :=
      fun path n hn => hwf₁.fileAt_of_touch htouch (by rw [hrec₁]; exact hn)
    simp only [htouch, ok_bind]
    split
    · exact ⟨_, _, rfl, h₁.trans h₂, fun _ => hsrc rfl, hkeep₂⟩
    · obtain ⟨r₃, s₃, hwrite, h₃⟩ := (h₂.wf hwf₁).write_micros (c := c) dst b false fun n hn => by
        have := hwf₁.fileAt_touched htouch hn
        rw [hrec₁] at this
        exact hc n this
      have hkeep₃ : ∀ path n, fileAt s.records path = some n → fileAt s₃.records path = some n :=
        fun path n hn => (h₂.wf hwf₁).fileAt_of_write hwrite (hkeep₂ path n hn)
      simp only [hwrite, ok_bind]
      split <;> exact ⟨_, _, rfl, (h₁.trans h₂).trans h₃, fun _ => hsrc rfl, hkeep₃⟩

theorem Wf.move_micros (src dst : PathArg)
    (hc : ∀ n, fileAt s.records dst.chars = some n ∨ newSlot s.records dst.chars = some n →
      c.edits n ∧ c.data n)
    (hnew : ∀ k, newSlot s.records dst.chars = some k → c.files k)
    (hsrc : ∀ n, lookup s.records src.chars = some n → c.edits n) :
    ∃ r s', vfsMove s src.chars dst.chars = .ok (r, s') ∧ Micros c s s' := by
  obtain ⟨r₁, s₁, hcopy, h₁, hfound, hkeep⟩ := h.copy_micros src dst hc hnew
  simp only [vfsMove, hcopy, ok_bind]
  split
  · exact ⟨_, _, rfl, h₁⟩
  · rename_i hr
    rw [not_not] at hr
    obtain ⟨m, hm⟩ := Option.isSome_iff_exists.mp (hfound hr)
    obtain ⟨r₂, s₂, hremove, h₂⟩ := (h₁.wf h).remove_micros (c := c) src fun n hn => by
      rw [(fileAt_eq_some_iff.mp (hkeep _ m hm)).1] at hn
      exact hsrc n (by rw [(fileAt_eq_some_iff.mp hm).1, Option.some.inj hn])
    exact ⟨r₂, s₂, hremove, h₁.trans h₂⟩

theorem Wf.list_eq (p : PathArg) (max : UInt32) :
    vfsList s p.chars max = .ok ((lookup s.records p.chars).bind fun n =>
      if (s.records n).type = VfsType.directory.code then
        some (listLoop s.records n max.toNat slots [])
      else none) := by
  rw [vfsList, h.find_eq, ok_bind]
  cases lookup s.records p.chars with
  | none => rfl
  | some n =>
    by_cases hdir : (s.records n).type = VfsType.directory.code
    · simp [hdir]
    · simp [hdir]

theorem Wf.stat_eq (p : PathArg) :
    vfsStatPath s p.chars = .ok ((lookup s.records p.chars).map fun n =>
      ⟨(s.records n).type, (s.records n).size⟩) := by
  rw [vfsStatPath, h.find_eq, ok_bind]
  cases lookup s.records p.chars <;> rfl

theorem Wf.isDirectory_eq (p : PathArg) : vfsIsDirectory s p.chars = .ok (decide (∃ n,
    lookup s.records p.chars = some n ∧ (s.records n).type = VfsType.directory.code)) := by
  rw [vfsIsDirectory, h.stat_eq, ok_bind]
  cases lookup s.records p.chars <;> simp

end Operations

/-! ## The scope of a call -/

/-- The slots a call may touch, read off the table it starts from -/
def Op.scope (t : Table) : Op → Scope
  | .mkdir p => ⟨fun n => newSlot t p.chars = some n, fun _ => False, fun _ => False⟩
  | .touch p => ⟨fun n => newSlot t p.chars = some n, fun n => newSlot t p.chars = some n,
      fun _ => False⟩
  | .rmdir p | .remove p => ⟨fun n => lookup t p.chars = some n, fun _ => False, fun _ => False⟩
  | .write p _ _ => ⟨fun n => fileAt t p.chars = some n, fun _ => False,
      fun n => fileAt t p.chars = some n⟩
  | .copy _ dst => ⟨fun n => fileAt t dst.chars = some n ∨ newSlot t dst.chars = some n,
      fun n => newSlot t dst.chars = some n,
      fun n => fileAt t dst.chars = some n ∨ newSlot t dst.chars = some n⟩
  | .move src dst => ⟨fun n => (fileAt t dst.chars = some n ∨ newSlot t dst.chars = some n) ∨
        lookup t src.chars = some n,
      fun n => newSlot t dst.chars = some n,
      fun n => fileAt t dst.chars = some n ∨ newSlot t dst.chars = some n⟩
  | .read _ _ | .list _ _ | .stat _ => ⟨fun _ => False, fun _ => False, fun _ => False⟩

/-- **Every call is micro-steps.** From a well-formed table no call faults, and its effect on the
state is a sequence of micro-steps within its scope. -/
theorem Wf.step_micros {s : State} (h : Wf s.records) (op : Op) :
    ∃ r s', step s op = .ok (r, s') ∧ Micros (op.scope s.records) s s' := by
  cases op with
  | mkdir p =>
    obtain ⟨r, s', hr, hm⟩ := h.create_micros p .directory (c := (Op.mkdir p).scope s.records)
      fun k hk => ⟨hk, nofun⟩
    exact ⟨.code r, s', by simp [step, vfsMkdir, hr], hm⟩
  | rmdir p =>
    obtain ⟨r, s', hr, hm⟩ := h.rmdir_micros p (c := (Op.rmdir p).scope s.records) fun _ => id
    exact ⟨.code r, s', by simp [step, hr], hm⟩
  | touch p =>
    obtain ⟨r, s', hr, hm⟩ := h.touch_micros p (c := (Op.touch p).scope s.records)
      fun _ hk => ⟨hk, hk⟩
    exact ⟨.code r, s', by simp [step, hr], hm⟩
  | remove p =>
    obtain ⟨r, s', hr, hm⟩ := h.remove_micros p (c := (Op.remove p).scope s.records) fun _ => id
    exact ⟨.code r, s', by simp [step, hr], hm⟩
  | read p cap =>
    obtain ⟨r, s', hr, hm⟩ := h.read_micros p cap
    exact ⟨.data r, s', by simp [step, hr], hm⟩
  | write p d append =>
    obtain ⟨r, s', hr, hm⟩ := h.write_micros p d append (c := (Op.write p d append).scope s.records)
      fun _ hn => ⟨hn, hn⟩
    exact ⟨.code r, s', by simp [step, hr], hm⟩
  | copy src dst =>
    obtain ⟨r, s', hr, hm, -⟩ := h.copy_micros src dst (c := (Op.copy src dst).scope s.records)
      (fun _ hn => ⟨hn, hn⟩) fun _ => id
    exact ⟨.code r, s', by simp [step, hr], hm⟩
  | move src dst =>
    obtain ⟨r, s', hr, hm⟩ := h.move_micros src dst (c := (Op.move src dst).scope s.records)
      (fun _ hn => ⟨Or.inl hn, hn⟩) (fun _ => id) fun _ => Or.inr
    exact ⟨.code r, s', by simp [step, hr], hm⟩
  | list p max => exact ⟨_, s, by rw [step, h.list_eq]; rfl, .refl⟩
  | stat p => exact ⟨_, s, by rw [step, h.stat_eq]; rfl, .refl⟩

end MinOS.Vfs
