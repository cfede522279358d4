/-
# MinOS.Vfs.Refine — without a disk, `vfs.c` is the file tree.

`Refines s T` reads a tree out of the state: a path leads to slot `i` in the tree exactly when the
parent links of the table lead there, and the node is a directory or the first `size` bytes of row `i`
of the cache. What a removed record or an old file leaves behind is not part of it. Each call returns
what the same call on the tree returns and ends in a state that refines the tree's (`Refines.step`), so
whole runs give the same replies.

Only the refinement is here: `MinOS.Vfs.FileTree` has the tree, `MinOS.Vfs.Calls` what each call
computes on a well-formed table.
-/
import MinOS.Vfs.FileTree
import MinOS.Vfs.Reach

namespace MinOS.Vfs

open NameTree Machine MinOS.Ata
open Bytes (chars)

/-! ## The tree in a state -/

/-- The bytes of a file -/
def bytesOf (s : State) (i : Slot) : FileBytes :=
  ⟨(List.ofFn (s.contents i)).take (s.records i).size.toNat, by
    rw [List.length_take, List.length_ofFn]
    exact Nat.min_le_right _ _⟩

@[simp] theorem bytesOf_val (s : State) (i : Slot) :
    (bytesOf s i).val = (List.ofFn (s.contents i)).take (s.records i).size.toNat := rfl

/-- The node at a slot -/
def nodeOf (s : State) (i : Slot) : Node :=
  if (s.records i).type = VfsType.file.code then .file (bytesOf s i) else .directory

/-- **The refinement relation**: no disk, a well-formed table, and `T` is the tree it stores. -/
structure Refines (s : State) (T : Tree) : Prop where
  wf : Wf s.records
  volatile : s.diskBacked = false
  entry : ∀ p i a, T.entry p = some (i, a) ↔ (links s.records).Path i p ∧ a = nodeOf s i

theorem nodeOf_file {s : State} {i : Slot} (h : (s.records i).type = VfsType.file.code) :
    nodeOf s i = .file (bytesOf s i) := if_pos h

theorem nodeOf_directory {s : State} {i : Slot} (h : (s.records i).type = VfsType.directory.code) :
    nodeOf s i = .directory :=
  if_neg (by rw [h]; decide)

theorem nodeOf_eq_directory_iff {s : State} {i : Slot} (hwf : Wf s.records)
    (hu : (s.records i).used ≠ 0) :
    nodeOf s i = .directory ↔ (s.records i).type = VfsType.directory.code := by
  rcases hwf.type i hu with h | h
  · simp [nodeOf_directory h, h]
  · simp [nodeOf_file h, h]
    decide

/-- The node depends on the record and the row only. -/
theorem nodeOf_congr {s s' : State} {i : Slot} (hrecord : s'.records i = s.records i)
    (hrow : s'.contents i = s.contents i) : nodeOf s' i = nodeOf s i := by
  simp only [nodeOf, bytesOf, hrecord, hrow]

theorem nodeOf_type {s : State} {i : Slot} (hwf : Wf s.records) (hu : (s.records i).used ≠ 0) :
    (nodeOf s i).type = (s.records i).type := by
  rcases hwf.type i hu with h | h
  · rw [nodeOf_directory h, h]
    rfl
  · rw [nodeOf_file h, h]
    rfl

theorem nodeOf_size {s : State} {i : Slot} (hwf : Wf s.records) (hu : (s.records i).used ≠ 0) :
    (nodeOf s i).size = (s.records i).size := by
  rcases hwf.type i hu with h | h
  · rw [nodeOf_directory h, hwf.dir_size i hu h]
    rfl
  · have hle : (s.records i).size.toNat ≤ 4096 := hwf.size i hu
    rw [nodeOf_file h, Node.size, bytesOf, List.length_take, List.length_ofFn,
      Nat.min_eq_left hle, UInt32.ofNat_toNat]

section Reading

variable {s : State} {T : Tree} (h : Refines s T)
include h

theorem Refines.entry_eq (c : List (List UInt8)) :
    T.entry c = (resolve s.records c).map fun i => (i, nodeOf s i) := by
  ext ⟨i, a⟩
  rw [h.entry, ← h.wf.resolve_eq_some_iff]
  simp only [Option.map_eq_some_iff, Prod.mk.injEq]
  constructor
  · rintro ⟨hi, ha⟩
    exact ⟨i, hi, rfl, ha.symm⟩
  · rintro ⟨j, hj, rfl, ha⟩
    exact ⟨hj, ha.symm⟩

theorem Refines.get_eq (p : PathArg) :
    T.get p = (lookup s.records p.chars).map fun i => (i, nodeOf s i) := by
  rw [Tree.get, lookup]
  cases canon p.chars with
  | none => rfl
  | some c => exact h.entry_eq c

/-- A tag is free when its slot is. -/
theorem Refines.freeTag_eq : T.freeTag = freeSlot s.records := by
  classical
  rw [Tree.freeTag, freeSlot]
  congr 1
  funext i
  apply decide_eq_decide.mpr
  constructor
  · intro hfree
    by_contra hu
    obtain ⟨p, hp, -⟩ := h.wf.path i hu
    exact hfree p _ ((h.entry p i _).mpr ⟨hp, rfl⟩)
  · intro hu p a hp
    exact h.wf.path_used ((h.entry p i a).mp hp).1 hu

theorem Refines.directory_iff {c : List (List UInt8)} {i : Slot} :
    T.entry c = some (i, .directory) ↔
      resolve s.records c = some i ∧ (s.records i).type = VfsType.directory.code := by
  rw [h.entry, h.wf.resolve_eq_some_iff]
  constructor
  · rintro ⟨hp, hd⟩
    exact ⟨hp, (nodeOf_eq_directory_iff h.wf (h.wf.path_used hp)).mp hd.symm⟩
  · rintro ⟨hp, hd⟩
    exact ⟨hp, (nodeOf_directory hd).symm⟩

theorem Refines.get_file {p : PathArg} {i : Slot} (hi : fileAt s.records p.chars = some i) :
    T.get p = some (i, .file (bytesOf s i)) := by
  obtain ⟨hl, hf⟩ := fileAt_eq_some_iff.mp hi
  rw [h.get_eq, hl, Option.map_some, nodeOf_file hf]

theorem Refines.get_ne_file {p : PathArg} (hi : fileAt s.records p.chars = none) (i : Slot)
    (b : FileBytes) : T.get p ≠ some (i, .file b) := by
  rw [h.get_eq]
  intro hb
  obtain ⟨j, hj, heq⟩ := Option.map_eq_some_iff.mp hb
  have hfile : (s.records j).type = VfsType.file.code := by
    by_contra hne
    rw [nodeOf, if_neg hne] at heq
    cases heq
  rw [fileAt_eq_some_iff.mpr ⟨hj, hfile⟩] at hi
  cases hi

end Reading

/-! ## Listing -/

theorem listLoop_eq (t : Table) (n : Slot) (max : Nat) (is : List Slot) : ∀ out : List VfsDirent,
    listLoop t n max is out
      = out ++ ((is.filter (isChildOf t n)).map fun i => direntOf (t i)).take (max - out.length) := by
  induction is with
  | nil => intro out; simp [listLoop]
  | cons i is ih =>
    intro out
    rw [listLoop]
    by_cases hroom : out.length < max
    · rw [if_pos hroom, ih]
      by_cases hi : isChildOf t n i = true
      · obtain ⟨m, hm⟩ : ∃ m, max - out.length = m + 1 := ⟨max - out.length - 1, by omega⟩
        have hm' : max - (out ++ [direntOf (t i)]).length = m := by
          simp only [List.length_append, List.length_singleton]
          omega
        rw [if_pos hi, List.filter_cons_of_pos hi, List.map_cons, hm, hm', List.take_succ_cons]
        simp
      · rw [if_neg hi, List.filter_cons_of_neg hi]
    · have hfull : max - out.length = 0 := by omega
      rw [if_neg hroom, hfull, List.take_zero, List.append_nil]

/-- A record below `n` is a child of the directory `n` stands for, under its own name. -/
theorem Refines.childAt_eq {s : State} {T : Tree} (h : Refines s T) {c : List (List UInt8)}
    {n i : Slot} (hn : resolve s.records c = some n) (hi : i ≠ 0) :
    T.childAt c i = if isChildOf s.records n i then some (chars (s.records i).name, nodeOf s i)
      else none := by
  have hc := h.wf.resolve_eq_some_iff.mp hn
  ext ⟨x, a⟩
  rw [Tree.childAt_eq_some_iff, h.entry, Links.path_concat_iff]
  have hchild : isChildOf s.records n i = true ↔
      (s.records i).used ≠ 0 ∧ (s.records i).parent.toInt = n := by
    rw [isChildOf, decide_eq_true_eq]
  constructor
  · rintro ⟨⟨⟨hu, -, -, hx⟩, hup⟩, ha⟩
    have hpar := (h.wf.up_eq_iff hi hu).mp (hup.inj h.wf.distinct hc)
    rw [if_pos (hchild.mpr ⟨hu, hpar⟩)]
    exact congrArg some (Prod.ext hx ha.symm)
  · intro hx
    split at hx
    · rename_i hin
      obtain ⟨hu, hpar⟩ := hchild.mp hin
      cases hx
      have hup := (h.wf.up_eq_iff hi hu).mpr hpar
      exact ⟨⟨⟨hu, hi, rfl, rfl⟩, hup ▸ hc⟩, rfl⟩
    · cases hx

/-- **`vfs_list` lists the children**, the first `max` of them, in slot order. -/
theorem Refines.list_eq {s : State} {T : Tree} (h : Refines s T) (p : PathArg) (max : UInt32) :
    vfsList s p.chars max = .ok (T.list p max) := by
  rw [h.wf.list_eq, Tree.list, lookup]
  cases hp : canon p.chars with
  | none => rfl
  | some c =>
    dsimp only
    rw [Option.bind_some, h.entry_eq c]
    cases hn : resolve s.records c with
    | none => rfl
    | some n =>
      have hu := h.wf.path_used (h.wf.resolve_eq_some_iff.mp hn)
      rcases h.wf.type n hu with hd | hf
      · have hmap : slots.filterMap (T.childAt c)
            = (slots.filter (isChildOf s.records n)).map
                fun i => (chars (s.records i).name, nodeOf s i) := by
          rw [← List.filterMap_eq_map, List.filterMap_filter]
          apply List.filterMap_congr
          intro i hi
          rw [h.childAt_eq hn (mem_slots.mp hi)]
          rfl
        have hdirent : ∀ i ∈ slots.filter (isChildOf s.records n),
            direntOf (s.records i)
              = ⟨chars (s.records i).name, (nodeOf s i).type, (nodeOf s i).size⟩ := by
          intro i hi
          obtain ⟨hi, hin⟩ := List.mem_filter.mp hi
          have hui : (s.records i).used ≠ 0 := by
            rw [isChildOf, decide_eq_true_eq] at hin
            exact hin.1
          have hgood := (h.wf.name i (mem_slots.mp hi) hui).2
          rw [direntOf, nodeOf_type h.wf hui, nodeOf_size h.wf hui,
            List.take_of_length_le hgood.length_le]
        simp only [Option.bind_some, Option.map_some, if_pos hd, nodeOf_directory hd]
        rw [listLoop_eq, hmap, List.map_take, List.map_map, List.map_congr_left hdirent]
        rfl
      · have hnd : (s.records n).type ≠ VfsType.directory.code := by
          rw [hf]
          decide
        simp only [Option.bind_some, Option.map_some, if_neg hnd, nodeOf_file hf]

theorem Refines.stat_eq {s : State} {T : Tree} (h : Refines s T) (p : PathArg) :
    vfsStatPath s p.chars = .ok (T.stat p) := by
  rw [h.wf.stat_eq, Tree.stat, h.get_eq]
  cases hn : lookup s.records p.chars with
  | none => rfl
  | some n =>
    have hu := h.wf.used_of_lookup hn
    simp only [Option.map_some, nodeOf_type h.wf hu, nodeOf_size h.wf hu]

/-! ## One call -/

/-- The call returned what the tree returns, and left a state that refines the tree's. -/
def Agrees {β : Type} (x : Except Fault (β × State)) (y : β × Tree) : Prop :=
  ∃ s', x = .ok (y.1, s') ∧ Refines s' y.2

theorem persist_volatile {s : State} (h : s.diskBacked = false) :
    persist s = (0, { s with flushed := true }) := by
  simp [persist, h]

theorem refresh_volatile {s : State} (h : s.diskBacked = false) (n : Slot) :
    refresh s n = (true, s) := by
  simp [refresh, h]

/-- The node `create` makes -/
def VfsType.emptyNode : VfsType → Node
  | .directory => .directory
  | .file => .file (.clip [])

theorem nodeOf_newRecord (s : State) (type : VfsType) (j k : Slot) (x : List UInt8) :
    nodeOf (s.setRecord k (newRecord type j k x)) k = type.emptyNode := by
  have htype : ((s.setRecord k (newRecord type j k x)).records k).type = type.code := by
    rw [setRecord_records, Function.update_self, newRecord_type]
  cases type with
  | directory => exact nodeOf_directory htype
  | file =>
    have hsize : ((s.setRecord k (newRecord .file j k x)).records k).size = 0 := by
      rw [setRecord_records, Function.update_self, newRecord_size]
    rw [nodeOf_file htype, VfsType.emptyNode]
    congr 1
    apply Subtype.ext
    rw [bytesOf_val, hsize]
    rfl

theorem createTarget_of_creatable {t : Table} {path : List UInt8} {q : List (List UInt8)}
    {x : List UInt8} {j k : Slot} (hp : canon path = some (q ++ [x])) (hc : Creatable t q x j k) :
    createTarget t path = some (j, k, x) := by
  rw [createTarget_concat hp hc.absent, hc.parent, Option.bind_some, if_pos hc.parent_dir, hc.slot]
  rfl

section OneCall

variable {s : State} {T : Tree} (h : Refines s T)
include h

/-- The tree and the table agree on what may be created. -/
theorem Refines.mayCreate_iff {q : List (List UInt8)} {x : List UInt8} {k : Slot}
    (hcan : Canonical (q ++ [x])) :
    T.MayCreate (q ++ [x]) k ↔ ∃ j, Creatable s.records q x j k := by
  have habsent : T.entry (q ++ [x]) = none ↔ resolve s.records (q ++ [x]) = none := by
    rw [h.entry_eq, Option.map_eq_none_iff]
  constructor
  · rintro ⟨hnone, ⟨j, hj⟩, hfree⟩
    rw [List.dropLast_concat, h.directory_iff] at hj
    exact ⟨j, hj.1, hj.2, habsent.mp hnone, hcan, by rw [← h.freeTag_eq, hfree]⟩
  · rintro ⟨j, hc⟩
    refine ⟨habsent.mpr hc.absent, ⟨j, ?_⟩, by rw [h.freeTag_eq, hc.slot]⟩
    rw [List.dropLast_concat, h.directory_iff]
    exact ⟨hc.parent, hc.parent_dir⟩

/-- Filling a slot adds the one entry. -/
theorem Refines.fill {q : List (List UInt8)} {x : List UInt8} {j k : Slot}
    (hc : Creatable s.records q x j k) (type : VfsType) {T' : Tree}
    (hT' : T'.entry = Function.update T.entry (q ++ [x]) (some (k, type.emptyNode))) :
    Refines (s.setRecord k (newRecord type j k x)) T' := by
  refine ⟨hc.wf h.wf type, h.volatile, fun p i a => ?_⟩
  rw [setRecord_records, hc.path_iff h.wf, hT']
  by_cases hp : p = q ++ [x]
  · subst hp
    have hold : ¬ (links s.records).Path i (q ++ [x]) := by
      rw [← h.wf.resolve_eq_some_iff, hc.absent]
      simp
    rw [Function.update_self]
    constructor
    · intro he
      cases he
      exact ⟨Or.inr ⟨rfl, rfl⟩, (nodeOf_newRecord s type j k x).symm⟩
    · rintro ⟨hi | ⟨rfl, -⟩, rfl⟩
      · exact absurd hi hold
      · rw [nodeOf_newRecord]
  · rw [Function.update_of_ne hp, h.entry]
    simp only [hp, and_false, or_false]
    apply and_congr_right
    intro hi
    have hik : i ≠ k := by
      rintro rfl
      exact h.wf.path_used hi hc.free
    have hnode : nodeOf (s.setRecord k (newRecord type j k x)) i = nodeOf s i :=
      nodeOf_congr (by rw [setRecord_records, Function.update_of_ne hik]) rfl
    rw [hnode]

/-- Clearing a record takes the one entry away. -/
theorem Refines.clear {n : Slot} {c : List (List UInt8)} (hc : Clearable s.records n)
    (hn : (links s.records).Path n c) {T' : Tree}
    (hT' : T'.entry = Function.update T.entry c none) :
    Refines (s.setRecord n { s.records n with used := 0 }) T' := by
  refine ⟨hc.wf h.wf, h.volatile, fun p i a => ?_⟩
  rw [setRecord_records, hc.path_iff h.wf, hT']
  by_cases hp : p = c
  · subst hp
    have hi : ¬ ((links s.records).Path i p ∧ i ≠ n) := fun hi => hi.2 (hi.1.inj h.wf.distinct hn)
    simp [hi]
  · have hin : (links s.records).Path i p → i ≠ n := by
      rintro hi rfl
      exact hp (hi.unique hn)
    rw [Function.update_of_ne hp, h.entry, and_iff_left_of_imp hin]
    apply and_congr_right
    intro hi
    have hnode : nodeOf (s.setRecord n { s.records n with used := 0 }) i = nodeOf s i :=
      nodeOf_congr (by rw [setRecord_records, Function.update_of_ne (hin hi)]) rfl
    rw [hnode]

theorem Refines.bytesOf_written {n : Slot} (hw : Writable s.records n) (d : List UInt8)
    (append : Bool) : bytesOf (written s n (writePos s.records n append) d) n
      = Tree.newBytes (bytesOf s n) d append := by
  have hpos := h.wf.writePos_le hw append
  apply Subtype.ext
  rw [bytesOf_val, take_written s n hpos, Tree.newBytes, FileBytes.clip_val]
  cases append with
  | false =>
    show (List.ofFn (s.contents n)).take 0 ++ d.take (vfsContentMax - 0) = d.take vfsContentMax
    rw [List.take_zero, List.nil_append, Nat.sub_zero]
  | true => exact (take_append_row (s.contents n) hpos d).symm

/-- A write changes the bytes of the one entry. -/
theorem Refines.overwrite {n : Slot} {c : List (List UInt8)} (hw : Writable s.records n)
    (hn : (links s.records).Path n c) (d : List UInt8) (append : Bool) {T' : Tree}
    (hT' : T'.entry
      = Function.update T.entry c (some (n, .file (Tree.newBytes (bytesOf s n) d append)))) :
    Refines (written s n (writePos s.records n append) d) T' := by
  have hsize := writtenSize_le (h.wf.writePos_le hw append) d
  refine ⟨hw.wf h.wf hsize, h.volatile, fun p i a => ?_⟩
  rw [written_records, links_resize, hT']
  by_cases hp : p = c
  · subst hp
    have hnode : nodeOf (written s n (writePos s.records n append) d) n
        = .file (Tree.newBytes (bytesOf s n) d append) := by
      rw [← h.bytesOf_written hw]
      apply nodeOf_file
      rw [written_records, Function.update_self]
      exact hw.file
    rw [Function.update_self]
    constructor
    · intro he
      cases he
      exact ⟨hn, hnode.symm⟩
    · rintro ⟨hi, rfl⟩
      rw [hi.inj h.wf.distinct hn, hnode]
  · rw [Function.update_of_ne hp, h.entry]
    apply and_congr_right
    intro hi
    have hin : i ≠ n := by
      rintro rfl
      exact hp (hi.unique hn)
    have hnode : nodeOf (written s n (writePos s.records n append) d) i = nodeOf s i :=
      nodeOf_congr (by rw [written_records, Function.update_of_ne hin])
        (by rw [written_contents, Function.update_of_ne hin])
    rw [hnode]

theorem Refines.agrees_create (p : PathArg) (type : VfsType) :
    Agrees (create s p.chars type) (T.create p type.emptyNode) := by
  rw [h.wf.create_eq]
  obtain ⟨hT, hno⟩ | ⟨c, k, T', hp, hmay, hT, hT'⟩ := T.create_cases p type.emptyNode
  · rw [hT]
    cases ht : createTarget s.records p.chars with
    | none => exact ⟨s, rfl, h⟩
    | some x =>
      -- the code would create what the tree refuses
      obtain ⟨j, k, x⟩ := x
      obtain ⟨q, hp, hc⟩ := creatable_of_createTarget ht
      exact absurd ((h.mayCreate_iff hc.canonical).mpr ⟨j, hc⟩) (hno _ k hp)
  · rw [hT]
    have hcan := canonical_of_canon hp
    obtain ⟨q, x, rfl⟩ :=
      (List.eq_nil_or_concat' c).resolve_left (hmay.fits hcan type.emptyNode).ne_root
    obtain ⟨j, hc⟩ := (h.mayCreate_iff hcan).mp hmay
    have hfill := h.fill hc type hT'
    rw [createTarget_of_creatable hp hc]
    dsimp only
    rw [persist_volatile hfill.volatile]
    exact ⟨_, rfl, hfill.wf, hfill.volatile, hfill.entry⟩

theorem Refines.agrees_touch (p : PathArg) : Agrees (vfsTouch s p.chars) (T.touch p) := by
  rw [h.wf.touch_eq, Tree.touch, h.get_eq, Option.isSome_map]
  split
  · exact ⟨s, rfl, h⟩
  · exact h.agrees_create p .file

/-- Clearing in memory and the flush that does nothing -/
theorem Refines.agrees_clear {n : Slot} {c : List (List UInt8)} (hc : Clearable s.records n)
    (hn : (links s.records).Path n c) {T' : Tree}
    (hT' : T'.entry = Function.update T.entry c none) : Agrees (.ok (clearUsed s n)) (0, T') := by
  have hclear := h.clear hc hn hT'
  rw [clearUsed, persist_volatile hclear.volatile]
  exact ⟨_, rfl, hclear.wf, hclear.volatile, hclear.entry⟩

/-- The tree and the table agree on which directories are empty. -/
theorem Refines.mayRmdir_iff {p : PathArg} {c : List (List UInt8)} (hp : canon p.chars = some c) :
    T.MayRmdir c ↔ ∃ n, rmdirTarget s.records p.chars = some n := by
  have hlookup : lookup s.records p.chars = resolve s.records c := by rw [lookup, hp]; rfl
  constructor
  · rintro ⟨hne, ⟨n, hn⟩, hleaf⟩
    rw [h.directory_iff] at hn
    have hpath := h.wf.resolve_eq_some_iff.mp hn.1
    refine ⟨n, rmdirTarget_eq_some_iff.mpr ⟨hlookup.trans hn.1, ?_, hn.2, ?_⟩⟩
    · rintro rfl
      exact hne (hpath.eq_nil_iff.mpr rfl)
    · intro hany
      obtain ⟨i, hi, hin⟩ := List.any_eq_true.mp hany
      have hchild := h.childAt_eq hn.1 (mem_slots.mp hi)
      rw [if_pos hin, Tree.childAt_eq_some_iff, hleaf] at hchild
      cases hchild
  · rintro ⟨n, hn⟩
    obtain ⟨hl, hn0, hd, hany⟩ := rmdirTarget_eq_some_iff.mp hn
    rw [hlookup] at hl
    have hpath := h.wf.resolve_eq_some_iff.mp hl
    refine ⟨fun hc => hn0 (hpath.eq_nil_iff.mp hc), ⟨n, h.directory_iff.mpr ⟨hl, hd⟩⟩, fun x => ?_⟩
    cases hx : T.entry (c ++ [x]) with
    | none => rfl
    | some e =>
      -- an entry below is a record that points at `n`
      obtain ⟨i, a⟩ := e
      obtain ⟨hi, -⟩ := (h.entry _ i a).mp hx
      rw [Links.path_concat_iff] at hi
      have hi0 : i ≠ 0 := hi.1.2.1
      have hpar := (h.wf.up_eq_iff hi0 hi.1.1).mp (hi.2.inj h.wf.distinct hpath)
      exact absurd hpar ((h.wf.clearable_of_rmdirTarget hn).leaf i hi0 hi.1.1)

theorem Refines.agrees_rmdir (p : PathArg) : Agrees (vfsRmdir s p.chars) (T.rmdir p) := by
  rw [h.wf.rmdir_eq]
  obtain ⟨hT, hno⟩ | ⟨c, T', hp, hmay, hT, hT'⟩ := T.rmdir_cases p
  · rw [hT]
    cases hn : rmdirTarget s.records p.chars with
    | none => exact ⟨s, rfl, h⟩
    | some n =>
      obtain ⟨c, hc, -⟩ := Option.bind_eq_some_iff.mp (rmdirTarget_eq_some_iff.mp hn).1
      exact absurd ((h.mayRmdir_iff hc).mpr ⟨n, hn⟩) (hno c hc)
  · obtain ⟨n, hn⟩ := (h.mayRmdir_iff hp).mp hmay
    have hl := (rmdirTarget_eq_some_iff.mp hn).1
    rw [lookup, hp, Option.bind_some] at hl
    rw [hT, hn]
    exact h.agrees_clear (h.wf.clearable_of_rmdirTarget hn) (h.wf.resolve_eq_some_iff.mp hl) hT'

/-- A file in the tree is the file `find` finds. -/
theorem Refines.fileAt_of_entry {p : PathArg} {c : List (List UInt8)} {i : Slot} {b : FileBytes}
    (hp : canon p.chars = some c) (hi : T.entry c = some (i, .file b)) :
    fileAt s.records p.chars = some i ∧ (links s.records).Path i c ∧ b = bytesOf s i := by
  obtain ⟨hpath, hnode⟩ := (h.entry c i _).mp hi
  have hfile : (s.records i).type = VfsType.file.code := by
    by_contra hne
    rw [nodeOf, if_neg hne] at hnode
    cases hnode
  rw [nodeOf_file hfile] at hnode
  refine ⟨fileAt_eq_some_iff.mpr ⟨?_, hfile⟩, hpath, by cases hnode; rfl⟩
  rw [lookup, hp, Option.bind_some]
  exact h.wf.resolve_eq_some_iff.mpr hpath

theorem Refines.agrees_remove (p : PathArg) : Agrees (vfsRemove s p.chars) (T.remove p) := by
  rw [h.wf.remove_eq]
  obtain ⟨hT, hno⟩ | ⟨c, i, b, T', hp, hi, hT, hT'⟩ := T.remove_cases p
  · rw [hT]
    cases hn : fileAt s.records p.chars with
    | none => exact ⟨s, rfl, h⟩
    | some n => exact absurd (h.get_file hn) (hno n _)
  · obtain ⟨hn, hpath, -⟩ := h.fileAt_of_entry hp hi
    rw [hT, hn]
    exact h.agrees_clear (h.wf.clearable_of_writable (h.wf.writable_of_fileAt hn)) hpath hT'

theorem Refines.agrees_write (p : PathArg) (d : List UInt8) (append : Bool) :
    Agrees (vfsWrite s p.chars d append) (T.write p d append) := by
  rw [h.wf.write_eq]
  obtain ⟨hT, hno⟩ | ⟨c, i, b, T', hp, hi, hT, hT'⟩ := T.write_cases p d append
  · rw [hT]
    cases hn : fileAt s.records p.chars with
    | none => exact ⟨s, rfl, h⟩
    | some n => exact absurd (h.get_file hn) (hno n _)
  · obtain ⟨hn, hpath, rfl⟩ := h.fileAt_of_entry hp hi
    have hover := h.overwrite (h.wf.writable_of_fileAt hn) hpath d append hT'
    rw [hT, hn]
    dsimp only
    rw [writeAt_eq, h.volatile, if_neg Bool.false_ne_true, persist_volatile hover.volatile]
    exact ⟨_, rfl, hover.wf, hover.volatile, hover.entry⟩

theorem Refines.read_eq (p : PathArg) (cap : UInt32) :
    vfsRead s p.chars cap = .ok (T.read p cap, s) := by
  rw [h.wf.read_eq, Tree.read]
  cases hn : fileAt s.records p.chars with
  | none =>
    dsimp only
    split
    · rename_i i b hget
      exact absurd hget (h.get_ne_file hn i b)
    · rfl
  | some n =>
    rw [h.get_file hn]
    dsimp only
    rw [readAt, refresh_volatile h.volatile, bytesOf_val, List.take_take, Nat.min_comm]

theorem Refines.agrees_copy (src dst : PathArg) :
    Agrees (vfsCopy s src.chars dst.chars) (T.copy src dst) := by
  rw [vfsCopy, h.read_eq, ok_bind, Tree.copy]
  cases T.read src 4096 with
  | none => exact ⟨s, rfl, h⟩
  | some b =>
    obtain ⟨s₁, htouch, h₁⟩ := h.agrees_touch dst
    simp only [htouch, ok_bind]
    by_cases hr₁ : (T.touch dst).1 ≠ 0
    · rw [if_pos hr₁, if_pos hr₁]
      exact ⟨s₁, rfl, h₁⟩
    · obtain ⟨s₂, hwrite, h₂⟩ := h₁.agrees_write dst b false
      rw [if_neg hr₁, if_neg hr₁]
      simp only [hwrite, ok_bind]
      split <;> exact ⟨s₂, rfl, h₂⟩

theorem Refines.agrees_move (src dst : PathArg) :
    Agrees (vfsMove s src.chars dst.chars) (T.move src dst) := by
  obtain ⟨s₁, hcopy, h₁⟩ := h.agrees_copy src dst
  rw [vfsMove, hcopy, ok_bind, Tree.move]
  dsimp only
  split
  · exact ⟨s₁, rfl, h₁⟩
  · exact h₁.agrees_remove src

/-- **One call**: same reply, and the states still correspond. -/
theorem Refines.step (op : Op) : Agrees (step s op) (T.step op) := by
  have hcode : ∀ {x : Except Fault (Int × State)} {y : Int × Tree}, Agrees x y →
      Agrees (x >>= fun a => pure (a.map Reply.code id)) (y.map Reply.code id) := by
    rintro x y ⟨s', hx, h'⟩
    exact ⟨s', reply_eq_ok_iff.mpr ⟨y.1, hx, rfl⟩, h'⟩
  cases op with
  | mkdir p => exact hcode (h.agrees_create p .directory)
  | rmdir p => exact hcode (h.agrees_rmdir p)
  | touch p => exact hcode (h.agrees_touch p)
  | remove p => exact hcode (h.agrees_remove p)
  | write p d append => exact hcode (h.agrees_write p d append)
  | copy src dst => exact hcode (h.agrees_copy src dst)
  | move src dst => exact hcode (h.agrees_move src dst)
  | read p cap => exact ⟨s, reply_eq_ok_iff.mpr ⟨_, h.read_eq p cap, rfl⟩, h⟩
  | list p max => exact ⟨s, by rw [Vfs.step, h.list_eq]; rfl, h⟩
  | stat p => exact ⟨s, by rw [Vfs.step, h.stat_eq]; rfl, h⟩

end OneCall

/-! ## Runs -/

/-- `vfs_init` without a disk ends in the empty tree, whatever was in memory before. -/
theorem refines_vfsInit (s₀ : State) (hdisk : s₀.drive.present = false) :
    (vfsInit s₀).1 = 0 ∧ Refines (vfsInit s₀).2 Tree.empty := by
  have hinit : vfsInit s₀
      = persist { s₀ with records := initTable, generation := 0, diskBacked := false } := by
    simp [vfsInit, ataPrimaryMasterPresent, hdisk]
  rw [hinit, persist_volatile rfl]
  refine ⟨rfl, wf_initTable, rfl, fun p i a => ?_⟩
  have hroot : ∀ i, (initTable i).used ≠ 0 → i = 0 := by decide
  show (if p = [] then some (0, Node.directory) else none) = some (i, a) ↔
    (links initTable).Path i p ∧ _
  constructor
  · intro he
    split at he
    · rename_i hp
      cases he
      exact ⟨hp ▸ .root, (nodeOf_directory rfl).symm⟩
    · cases he
  · rintro ⟨hp, rfl⟩
    -- only the root is used
    obtain rfl := hroot i (wf_initTable.path_used hp)
    rw [if_pos (hp.eq_nil_iff.mpr rfl)]
    exact congrArg (fun a => some ((0 : Slot), a)) (nodeOf_directory rfl).symm

/-- **Volatile mode refines the file tree.** From `vfs_init` without a disk, and whatever was in memory
before, a run of any calls faults nowhere and returns call by call what the tree returns. On a tree, a
call that returns -1 changes nothing, no call changes an entry it does not name, and there are at most
63 entries beside the root. -/
theorem volatile_refines_tree (s₀ : State) (hdisk : s₀.drive.present = false) (ops : List Op) :
    (vfsInit s₀).1 = 0 ∧
    (∃ s, run step (vfsInit s₀).2 ops = .ok ((refRun Tree.step .empty ops).1, s) ∧
      Refines s (refRun Tree.step .empty ops).2) ∧
    ∀ T : Tree, (∀ op, (T.step op).1.rc = -1 → (T.step op).2 = T) ∧
      (∀ op q, (∀ p ∈ op.targets, canon p.chars ≠ some q) → (T.step op).2.entry q = T.entry q) ∧
      ∀ F : Finset (List (List UInt8)), (∀ p ∈ F, p ≠ [] ∧ (T.entry p).isSome) → F.card ≤ 63 := by
  obtain ⟨hrc, hinit⟩ := refines_vfsInit s₀ hdisk
  refine ⟨hrc, ?_, fun T => ⟨?_, ?_, T.card_le⟩⟩
  · apply run_simulates (R := Refines) _ ops _ _ hinit
    intro s T op h
    exact h.step op
  · intro op
    exact (T.step_laws op).1
  · intro op
    exact (T.step_laws op).2

theorem volatile_refines_tree_mkdir :
    (State.boot noDrive).drive.present = false ∧
      (refRun Tree.step .empty [.mkdir pathA]).1 = [.code 0] := by
  refine ⟨rfl, ?_⟩
  obtain ⟨-, ⟨s, hrun, -⟩, -⟩ := volatile_refines_tree (State.boot noDrive) rfl [.mkdir pathA]
  have hwf := (refines_vfsInit (State.boot noDrive) rfl).2.wf
  have htarget : createTarget (vfsInit (State.boot noDrive)).2.records pathA.chars
      = some (0, 1, [97]) := by
    show createTarget initTable pathA.chars = _
    decide
  have hcreate := hwf.create_eq pathA .directory
  rw [htarget] at hcreate
  dsimp only at hcreate
  rw [persist_volatile rfl] at hcreate
  have hstep : step (vfsInit (State.boot noDrive)).2 (.mkdir pathA) = .ok (.code 0, _) :=
    reply_eq_ok_iff.mpr ⟨0, hcreate, rfl⟩
  have hreplies := replies_singleton hstep
  rw [replies, hrun] at hreplies
  exact Except.ok.inj hreplies

end MinOS.Vfs
