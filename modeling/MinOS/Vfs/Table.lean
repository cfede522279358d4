/-
# MinOS.Vfs.Table — well-formed record tables, and why `find` is exact on them.

The record table is a parent-linked naming tree (`links`). `Wf` is the invariant every operation of
the filesystem restores: the root record, live directory parents, good and terminated names, bounded
sizes, one data extent per slot, a canonical path for every used record, no two siblings with one
name. `find` never looks at that tree: it rebuilds the path string of every used record through a
16-entry stack and compares strings. On a well-formed table that is the same as walking down from
record 0 (`find_eq`), because a canonical path fits the stack and the buffer and `joinParts` is
injective.
-/
import MinOS.Lib.Machine
import MinOS.Lib.NameTree
import MinOS.Vfs.Model

namespace MinOS.Vfs

open NameTree Machine
open Bytes (chars copyStr Terminated)

/-! ## The tree in the table -/

/-- The parent of a record as a slot; exact when the stored index is one -/
def parentSlot (r : VfsRecord) : Slot := Fin.ofNat 64 r.parent.toInt.toNat

/-- The naming tree a table stores -/
def links (t : Table) : Links Slot (List UInt8) where
  root := 0
  live i := (t i).used ≠ 0
  up i := parentSlot (t i)
  label i := chars (t i).name

/-- The unique used record with this parent and this name, if there is exactly one -/
def child (t : Table) (j : Slot) (x : List UInt8) : Option Slot :=
  match slots.filter fun i => (t i).used ≠ 0 ∧ (t i).parent.toInt = j ∧ chars (t i).name = x with
  | [i] => some i
  | _ => none

/-- The component-wise resolver: from record 0, follow one component after the other -/
def resolve (t : Table) (p : List (List UInt8)) : Option Slot := Links.walk (child t) 0 p

/-- The slot a path argument names -/
def lookup (t : Table) (path : List UInt8) : Option Slot := (canon path).bind (resolve t)

/-- The first of the 8 data sectors of a slot -/
def slotLba (i : Slot) : UInt32 := vfsDataLba + UInt32.ofNat i * 8

/-- **The table invariant.** -/
structure Wf (t : Table) : Prop where
  root_used : (t 0).used ≠ 0
  root_type : (t 0).type = VfsType.directory.code
  root_parent : (t 0).parent = -1
  parent : ∀ i, i ≠ 0 → (t i).used ≠ 0 → ∃ j : Slot, (t i).parent.toInt = j ∧
    (t j).used ≠ 0 ∧ (t j).type = VfsType.directory.code
  name : ∀ i, i ≠ 0 → (t i).used ≠ 0 → Terminated (t i).name ∧ GoodName (chars (t i).name)
  type : ∀ i, (t i).used ≠ 0 →
    (t i).type = VfsType.directory.code ∨ (t i).type = VfsType.file.code
  size : ∀ i, (t i).used ≠ 0 → (t i).size.toNat ≤ vfsContentMax
  dir_size : ∀ i, (t i).used ≠ 0 → (t i).type = VfsType.directory.code → (t i).size = 0
  lba : ∀ i, i ≠ 0 → (t i).used ≠ 0 → (t i).dataLba = slotLba i
  path : ∀ i, (t i).used ≠ 0 → ∃ p, (links t).Path i p ∧ Canonical p
  distinct : (links t).Distinct

theorem mem_slots {i : Slot} : i ∈ slots ↔ i ≠ 0 := by
  revert i; decide

theorem nodup_slots : slots.Nodup := by decide

@[simp] theorem links_live (t : Table) (i : Slot) : (links t).live i ↔ (t i).used ≠ 0 := Iff.rfl

theorem parentSlot_of_toInt {r : VfsRecord} {j : Slot} (h : r.parent.toInt = j) :
    parentSlot r = j := by
  apply Fin.ext
  simp only [parentSlot, h, Fin.val_ofNat, Int.toNat_natCast]
  exact Nat.mod_eq_of_lt j.isLt

section WellFormed

variable {t : Table} (h : Wf t)
include h

theorem Wf.toInt_parent {i : Slot} (hi : i ≠ 0) (hu : (t i).used ≠ 0) :
    (t i).parent.toInt = parentSlot (t i) := by
  obtain ⟨j, hj, -⟩ := h.parent i hi hu
  rw [parentSlot_of_toInt hj, hj]

theorem Wf.up_eq_iff {i j : Slot} (hi : i ≠ 0) (hu : (t i).used ≠ 0) :
    (links t).up i = j ↔ (t i).parent.toInt = j := by
  rw [h.toInt_parent hi hu]
  constructor
  · rintro rfl; rfl
  · intro hj
    apply Fin.ext
    exact_mod_cast hj

theorem Wf.isChild_iff {i j : Slot} {x : List UInt8} :
    (links t).IsChild j x i ↔
      i ∈ slots ∧ (t i).used ≠ 0 ∧ (t i).parent.toInt = j ∧ chars (t i).name = x := by
  rw [mem_slots]
  constructor
  · rintro ⟨hu, hi, hup, hx⟩
    exact ⟨hi, hu, (h.up_eq_iff hi hu).mp hup, hx⟩
  · rintro ⟨hi, hu, hup, hx⟩
    exact ⟨hu, hi, (h.up_eq_iff hi hu).mpr hup, hx⟩

/-- The scan for a child finds it: siblings are distinct, so the filter has at most one element. -/
theorem Wf.child_eq_some_iff {i j : Slot} {x : List UInt8} :
    child t j x = some i ↔ (links t).IsChild j x i := by
  set l := slots.filter fun i =>
    (t i).used ≠ 0 ∧ (t i).parent.toInt = j ∧ chars (t i).name = x with hl
  have hmem : ∀ k, k ∈ l ↔ (links t).IsChild j x k := by
    intro k
    rw [h.isChild_iff, hl, List.mem_filter, decide_eq_true_eq]
  have hnodup : l.Nodup := nodup_slots.filter _
  rw [child, ← hl]
  match hcase : l with
  | [] =>
    have : ¬ (links t).IsChild j x i := by rw [← hmem]; simp
    simp [this]
  | [k] =>
    have hk : (links t).IsChild j x k := by rw [← hmem]; simp
    constructor
    · intro he
      cases he
      exact hk
    · intro hi
      rw [h.distinct j x i k hi hk]
  | k :: m :: rest =>
    have hk := (hmem k).mp (by simp)
    have hm := (hmem m).mp (by simp)
    have hkm : k = m := h.distinct j x k m hk hm
    simp [hkm] at hnodup

theorem Wf.resolve_eq_some_iff {i : Slot} {p : List (List UInt8)} :
    resolve t p = some i ↔ (links t).Path i p :=
  Links.walk_eq_some_iff (L := links t) fun _ _ _ => h.child_eq_some_iff

theorem Wf.path_used {i : Slot} {p : List (List UInt8)} (hp : (links t).Path i p) :
    (t i).used ≠ 0 :=
  hp.live h.root_used

theorem Wf.canonical_of_path {i : Slot} {p : List (List UInt8)} (hp : (links t).Path i p) :
    Canonical p := by
  obtain ⟨q, hq, hc⟩ := h.path i (h.path_used hp)
  rwa [hp.unique hq]

end WellFormed

/-! ## The path string `find` rebuilds -/

/-- The name loop copies a terminated name that fits. -/
theorem appendName_eq (cs : List UInt8) : ∀ (buf : List UInt8), 0 ∈ cs →
    (buf ++ cs.takeWhile (· ≠ 0)).length ≤ vfsPathMax →
    appendName buf cs = .ok (buf ++ cs.takeWhile (· ≠ 0)) := by
  induction cs with
  | nil => intro buf h0; simp at h0
  | cons c cs ih =>
    intro buf h0 hlen
    by_cases hc : c = 0
    · simp [appendName, hc]
    · have h0' : 0 ∈ cs := by
        rcases List.mem_cons.mp h0 with h | h
        · exact absurd h.symm hc
        · exact h
      have htake : (c :: cs).takeWhile (· ≠ 0) = c :: cs.takeWhile (· ≠ 0) :=
        List.takeWhile_cons_of_pos (by simpa using hc)
      rw [htake] at hlen ⊢
      have hroom : buf.length < vfsPathMax := by
        simp only [List.length_append, List.length_cons] at hlen
        omega
      rw [appendName, if_neg hc, if_pos hroom, ih _ h0' (by simpa using hlen)]
      simp

theorem joinName_eq {buf : List UInt8} {r : VfsRecord} (hterm : Terminated r.name)
    (hlen : (joinPart buf (chars r.name)).length ≤ vfsPathMax) :
    joinName buf r = .ok (joinPart buf (chars r.name)) := by
  have h0 : (0 : UInt8) ∈ List.ofFn r.name := by
    obtain ⟨j, hj⟩ := hterm
    exact List.mem_ofFn.mpr ⟨j, hj⟩
  rw [joinName, appendName_eq _ _ h0 hlen, ok_bind]
  exact if_pos hlen

theorem joinParts_length_mono {p : List (List UInt8)} {x : List UInt8} :
    (joinParts p).length ≤ (joinParts (p ++ [x])).length := by
  rw [joinParts_concat, joinPart]
  split <;> simp

theorem toU32_of_toInt {r : VfsRecord} {j : Slot} (h : r.parent.toInt = j) : toU32 r.parent = j := by
  have hj := j.isLt
  rw [toU32, h]
  omega

section Rebuild

variable {t : Table} (h : Wf t)
include h

/-- **The ancestor stack of a live node.** With room for the whole path, the stack walk never leaves
the table, and joining the names from the top of the stack down gives the node's path. The induction
is on the path: one more component, one more stack entry. -/
theorem Wf.ancestors_eq {i : Slot} {p : List (List UInt8)} (hp : (links t).Path i p) :
    ∀ fuel, p.length ≤ fuel → ∃ stack, ancestors t fuel i = .ok stack ∧
      stack.reverse.foldlM (fun buf k => joinName buf (t k)) [slash] = .ok (joinParts p) := by
  induction hp with
  | root =>
    intro fuel _
    refine ⟨[], ?_, rfl⟩
    cases fuel <;> rfl
  | @step i p hu hi hp ih =>
    intro fuel hfuel
    simp only [List.length_append, List.length_singleton] at hfuel
    obtain ⟨fuel, rfl⟩ : ∃ n, fuel = n + 1 := ⟨fuel - 1, by omega⟩
    obtain ⟨stack, hstack, hjoin⟩ := ih fuel (by omega)
    have hi0 : i ≠ 0 := hi
    have hpar := h.toInt_parent hi0 hu
    refine ⟨i :: stack, ?_, ?_⟩
    · have hne : i.val ≠ 0 := fun hv => hi0 (Fin.ext hv)
      rw [ancestors, if_neg hne, dif_pos i.isLt, toU32_of_toInt hpar]
      show (ancestors t fuel ((links t).up i) >>= _) = _
      rw [hstack]
      rfl
    · have hc := h.canonical_of_path (.step hu hi hp)
      rw [List.reverse_cons, List.foldlM_append, hjoin, ok_bind, List.foldlM_cons,
        joinName_eq (h.name i hi0 hu).1 (by rw [← joinParts_concat]; exact hc.length_le),
        joinParts_concat]
      rfl

theorem Wf.candidate_eq {i : Slot} (hi : i ≠ 0) {p : List (List UInt8)} (hp : (links t).Path i p) :
    candidate t i = .ok (joinParts p) := by
  have hc := h.canonical_of_path hp
  cases hp with
  | root => exact absurd rfl hi
  | @step _ p hu _ hp =>
    have hpar := h.toInt_parent hi hu
    have hparent : parentPath t (t i).parent.toInt.toNat = .ok (joinParts p) := by
      rw [hpar, Int.toNat_natCast, parentPath]
      by_cases h0 : (parentSlot (t i)).val = 0
      · -- a child of the root
        have hup : (links t).up i = 0 := Fin.ext h0
        rw [if_pos h0, hp.eq_nil_iff.mpr hup]
        rfl
      · obtain ⟨stack, hstack, hjoin⟩ := h.ancestors_eq hp 16 (by
          have := hc.depth_le
          simp only [List.length_append, List.length_singleton] at this
          omega)
        rw [if_neg h0]
        show (ancestors t 16 ((links t).up i) >>= _) = _
        rw [hstack, ok_bind, hjoin]
    have hlen : (joinParts p).length ≤ vfsPathMax := joinParts_length_mono.trans hc.length_le
    rw [candidate, hparent, ok_bind, List.take_of_length_le hlen, joinParts_concat]
    exact joinName_eq (h.name i hi hu).1 (by rw [← joinParts_concat]; exact hc.length_le)

/-- The scan over the table: it stops at a record with the wanted path, or there is none. -/
theorem Wf.findLoop_eq {c : List (List UInt8)} (hc : Canonical c) (is : List Slot)
    (his : ∀ i ∈ is, i ≠ 0) :
    ∃ r, findLoop t (joinParts c) is = .ok r ∧ (∀ i, r = some i → (links t).Path i c) ∧
      (r = none → ∀ i ∈ is, ¬ (links t).Path i c) := by
  induction is with
  | nil => exact ⟨none, rfl, by simp, by simp⟩
  | cons i is ih =>
    obtain ⟨r, hr, hsome, hnone⟩ := ih fun k hk => his k (List.mem_cons_of_mem i hk)
    have hi : i ≠ 0 := his i List.mem_cons_self
    rw [findLoop]
    by_cases hu : (t i).used = 0
    · rw [if_pos hu]
      refine ⟨r, hr, hsome, fun he k hk => ?_⟩
      rcases List.mem_cons.mp hk with rfl | hk
      · exact fun hp => h.path_used hp hu
      · exact hnone he k hk
    · obtain ⟨p, hp, hcan⟩ := h.path i hu
      have hpar : ¬ (t i).parent.toInt < 0 := by
        rw [h.toInt_parent hi hu]
        omega
      rw [if_neg hu, if_neg hpar, h.candidate_eq hi hp, ok_bind]
      by_cases heq : joinParts p = joinParts c
      · rw [if_pos heq]
        refine ⟨some i, rfl, ?_, by simp⟩
        intro k hk
        cases hk
        rwa [← joinParts_inj hcan.good hc.good heq]
      · rw [if_neg heq]
        refine ⟨r, hr, hsome, fun he k hk => ?_⟩
        rcases List.mem_cons.mp hk with rfl | hk
        · intro hk
          exact heq (by rw [hk.unique hp])
        · exact hnone he k hk

/-- **`find` is exact.** On a well-formed table and a path of at most `VFS_PATH_MAX` characters it
never faults, and returns what the component-wise resolver returns on the normalised path. -/
theorem Wf.find_eq (p : PathArg) : find t p.chars = .ok (lookup t p.chars) := by
  rw [find, normalizeRoot_eq, ok_bind, lookup]
  cases hcanon : canon p.chars with
  | none => rfl
  | some c =>
    have hc := canonical_of_canon hcanon
    simp only [Option.map_some, Option.bind_some]
    by_cases hroot : joinParts c = [slash]
    · rw [if_pos hroot, (joinParts_eq_root_iff hc.good).mp hroot]
      rfl
    · rw [if_neg hroot]
      obtain ⟨r, hr, hsome, hnone⟩ := h.findLoop_eq hc slots fun i hi => mem_slots.mp hi
      rw [hr]
      congr 1
      cases r with
      | some i => exact (h.resolve_eq_some_iff.mpr (hsome i rfl)).symm
      | none =>
        symm
        rw [Option.eq_none_iff_forall_ne_some]
        intro i hi
        have hp := h.resolve_eq_some_iff.mp hi
        have hi0 : i ≠ 0 := by
          rintro rfl
          have hnil : c = [] := (Links.Path.eq_nil_iff hp).mpr rfl
          exact hroot (by rw [hnil]; rfl)
        exact hnone rfl i (mem_slots.mpr hi0) hp

/-- `find` on the string of a canonical path -/
theorem Wf.find_joinParts {c : List (List UInt8)} (hc : Canonical c) :
    find t (joinParts c) = .ok (resolve t c) := by
  have := h.find_eq hc.arg
  rwa [show hc.arg.chars = joinParts c from rfl, lookup, canon_joinParts hc] at this

end Rebuild

end MinOS.Vfs
