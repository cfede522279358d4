/-
# MinOS.Vfs.Edit — the three ways a call changes the record table.

Every mutation in `vfs.c` is one of three edits of one record: fill a free slot with a new leaf
(`create`), clear `used` of a record nothing points at (`rmdir`, `remove`), set the size of a file
(`write`). Each is an `Edit`, stated with the facts the code has checked when it makes it. `Edit.wf`
says that an edit restores the table invariant, and the `path` lemmas say what it does to the tree;
later modules argue about edits and never about the bodies of the operations.
-/
import MinOS.Vfs.Table

namespace MinOS.Vfs

open NameTree Machine
open Bytes (chars copyStr Terminated chars_copyStr terminated_copyStr)

/-! ## Edits -/

/-- What `create` has checked before it fills slot `k` below `j` under the name `x` -/
structure Creatable (t : Table) (q : List (List UInt8)) (x : List UInt8) (j k : Slot) : Prop where
  parent : resolve t q = some j
  parent_dir : (t j).type = VfsType.directory.code
  absent : resolve t (q ++ [x]) = none
  canonical : Canonical (q ++ [x])
  slot : freeSlot t = some k

/-- What `rmdir` and `remove` have checked before they clear a record -/
structure Clearable (t : Table) (n : Slot) : Prop where
  ne_root : n ≠ 0
  used : (t n).used ≠ 0
  leaf : ∀ i, i ≠ 0 → (t i).used ≠ 0 → (t i).parent.toInt ≠ n

/-- What `write` has checked before it sets a size -/
structure Writable (t : Table) (n : Slot) : Prop where
  used : (t n).used ≠ 0
  file : (t n).type = VfsType.file.code

theorem Writable.congr {t t' : Table} {n : Slot} (hn : t' n = t n) (h : Writable t' n) :
    Writable t n :=
  ⟨hn ▸ h.used, hn ▸ h.file⟩

/-- One mutation of the table -/
inductive Edit (t : Table) : Table → Prop
  | create {q : List (List UInt8)} {x : List UInt8} {j k : Slot} (type : VfsType)
      (h : Creatable t q x j k) : Edit t (Function.update t k (newRecord type j k x))
  | clear {n : Slot} (h : Clearable t n) : Edit t (Function.update t n { t n with used := 0 })
  | resize {n : Slot} {size : UInt32} (h : Writable t n) (hsize : size.toNat ≤ vfsContentMax) :
      Edit t (Function.update t n { t n with size })

theorem freeSlot_eq_some_iff {t : Table} {k : Slot} : freeSlot t = some k ↔
    k ≠ 0 ∧ (t k).used = 0 ∧ ∀ i, i ≠ 0 → i < k → (t i).used ≠ 0 := by
  have hsorted : slots.Pairwise (· < ·) := by decide
  rw [freeSlot, List.find?_eq_some_iff_append]
  simp only [decide_eq_true_eq, Bool.not_eq_eq_eq_not, Bool.not_true, decide_eq_false_iff_not]
  constructor
  · rintro ⟨hk, as, bs, heq, has⟩
    have hmem : k ∈ slots := by rw [heq]; simp
    refine ⟨mem_slots.mp hmem, hk, fun i hi hik => ?_⟩
    have hi' : i ∈ as ++ k :: bs := heq ▸ mem_slots.mpr hi
    rcases List.mem_append.mp hi' with h | h
    · exact has i h
    · -- a slot from `k` on is not below `k`
      rw [heq, List.pairwise_append] at hsorted
      rcases List.mem_cons.mp h with rfl | h
      · exact absurd hik (lt_irrefl i)
      · exact absurd hik (not_lt.mpr (le_of_lt (List.rel_of_pairwise_cons hsorted.2.1 h)))
  · rintro ⟨hk0, hk, hlow⟩
    obtain ⟨as, bs, heq⟩ := List.append_of_mem (mem_slots.mpr hk0)
    refine ⟨hk, as, bs, heq, fun i hi => ?_⟩
    have hi0 : i ≠ 0 := mem_slots.mp (by rw [heq]; simp [hi])
    rw [heq, List.pairwise_append] at hsorted
    exact hlow i hi0 (hsorted.2.2 i hi k (by simp))

/-! ## The record `create` makes -/

@[simp] theorem newRecord_used (type : VfsType) (j k : Slot) (x : List UInt8) :
    (newRecord type j k x).used = 1 := rfl

@[simp] theorem newRecord_type (type : VfsType) (j k : Slot) (x : List UInt8) :
    (newRecord type j k x).type = type.code := rfl

@[simp] theorem newRecord_size (type : VfsType) (j k : Slot) (x : List UInt8) :
    (newRecord type j k x).size = 0 := rfl

@[simp] theorem newRecord_dataLba (type : VfsType) (j k : Slot) (x : List UInt8) :
    (newRecord type j k x).dataLba = slotLba k := rfl

@[simp] theorem newRecord_parent (type : VfsType) (j k : Slot) (x : List UInt8) :
    (newRecord type j k x).parent.toInt = j :=
  Int16.toInt_ofNat_of_lt (by omega)

theorem newRecord_chars (type : VfsType) (j k : Slot) {x : List UInt8} (hx : GoodName x) :
    chars (newRecord type j k x).name = x :=
  chars_copyStr _ (Nat.lt_succ_of_le hx.length_le) hx.nul_notMem

theorem newRecord_terminated (type : VfsType) (j k : Slot) (x : List UInt8) :
    Terminated (newRecord type j k x).name :=
  terminated_copyStr (by omega) _ _

/-! ## Creating -/

section Create

variable {t : Table} {q : List (List UInt8)} {x : List UInt8} {j k : Slot}

theorem Creatable.good (hc : Creatable t q x j k) : GoodName x :=
  hc.canonical.good x (by simp)

theorem Creatable.ne_root (hc : Creatable t q x j k) : k ≠ 0 := (freeSlot_eq_some_iff.mp hc.slot).1

theorem Creatable.free (hc : Creatable t q x j k) : (t k).used = 0 :=
  (freeSlot_eq_some_iff.mp hc.slot).2.1

theorem Creatable.parent_used (h : Wf t) (hc : Creatable t q x j k) : (t j).used ≠ 0 :=
  h.path_used (h.resolve_eq_some_iff.mp hc.parent)

theorem Creatable.parent_ne (h : Wf t) (hc : Creatable t q x j k) : j ≠ k := by
  rintro rfl
  exact hc.parent_used h hc.free

/-- No used record points at an unused one. -/
theorem Wf.up_ne_of_unused (h : Wf t) {n i : Slot} (hn : (t n).used = 0) (hu : (t i).used ≠ 0)
    (hi : i ≠ 0) : (links t).up i ≠ n := by
  obtain ⟨m, hm, hmu, -⟩ := h.parent i hi hu
  intro hup
  have : m = n := by
    rw [← hup]
    exact (parentSlot_of_toInt hm).symm
  exact hmu (this ▸ hn)

/-- **The tree after a create**: one new path, all others as before. -/
theorem Creatable.path_iff (h : Wf t) (hc : Creatable t q x j k) (type : VfsType) {i : Slot}
    {p : List (List UInt8)} :
    (links (Function.update t k (newRecord type j k x))).Path i p ↔
      (links t).Path i p ∨ (i = k ∧ p = q ++ [x]) := by
  have hq : (links t).Path j q := h.resolve_eq_some_iff.mp hc.parent
  have hiff := Links.path_insert_iff (L := links t)
    (M := links (Function.update t k (newRecord type j k x))) (j := j) (k := k) (x := x) rfl
    hc.ne_root (by simp [hc.free]) (hc.parent_ne h)
    (fun i hu hi => h.up_ne_of_unused hc.free hu hi)
    ⟨by simp, by
      simp only [links, Function.update_self]
      exact parentSlot_of_toInt (newRecord_parent type j k x), by
      simp only [links, Function.update_self]
      exact newRecord_chars type j k hc.good⟩
    (fun i hi => by simp [Function.update_of_ne hi])
    (fun i hi => by simp only [links, Function.update_of_ne hi])
    (fun i hi => by simp only [links, Function.update_of_ne hi]) (p := p) (i := i)
  -- The parent has one path, so the new record has one too.
  rw [hiff]
  constructor
  · rintro (hp | ⟨rfl, q', rfl, hq'⟩)
    · exact Or.inl hp
    · exact Or.inr ⟨rfl, by rw [hq'.unique hq]⟩
  · rintro (hp | ⟨rfl, rfl⟩)
    · exact Or.inl hp
    · exact Or.inr ⟨rfl, q, rfl, hq⟩

/-- A sibling of the new record with its name would have its path. -/
theorem Creatable.not_isChild (h : Wf t) (hc : Creatable t q x j k) (type : VfsType) {m i : Slot}
    {y : List UInt8} (hik : i ≠ k)
    (hi : (links (Function.update t k (newRecord type j k x))).IsChild m y i) :
    ¬ (links (Function.update t k (newRecord type j k x))).IsChild m y k := by
  obtain ⟨hu, hi0, hup, hy⟩ := hi
  rintro ⟨-, -, hupk, hyk⟩
  simp only [links, Function.update_self, Function.update_of_ne hik,
    newRecord_chars type j k hc.good] at hu hup hy hupk hyk
  rw [parentSlot_of_toInt (newRecord_parent type j k x)] at hupk
  have hp : (links t).Path i (q ++ [x]) := by
    rw [Links.path_concat_iff]
    refine ⟨⟨hu, hi0, rfl, hy.trans hyk.symm⟩, ?_⟩
    rw [show (links t).up i = j from hup.trans hupk.symm]
    exact h.resolve_eq_some_iff.mp hc.parent
  have := h.resolve_eq_some_iff.mpr hp
  rw [hc.absent] at this
  cases this

theorem Creatable.distinct (h : Wf t) (hc : Creatable t q x j k) (type : VfsType) :
    (links (Function.update t k (newRecord type j k x))).Distinct := by
  intro m y i i' hi hi'
  by_cases hik : i = k
  · by_cases hik' : i' = k
    · rw [hik, hik']
    · exact absurd (hik ▸ hi) (hc.not_isChild h type hik' hi')
  · by_cases hik' : i' = k
    · exact absurd (hik' ▸ hi') (hc.not_isChild h type hik hi)
    · refine h.distinct m y i i' ?_ ?_
      · simpa only [Links.IsChild, links, Function.update_of_ne hik] using hi
      · simpa only [Links.IsChild, links, Function.update_of_ne hik'] using hi'

theorem Creatable.wf (h : Wf t) (hc : Creatable t q x j k) (type : VfsType) :
    Wf (Function.update t k (newRecord type j k x)) := by
  have hk0 : (0 : Slot) ≠ k := fun he => hc.ne_root he.symm
  have hold : ∀ i, i ≠ k → Function.update t k (newRecord type j k x) i = t i :=
    fun i hi => Function.update_of_ne hi _ _
  have hnew : Function.update t k (newRecord type j k x) k = newRecord type j k x :=
    Function.update_self _ _ _
  -- Clause by clause; in each, the new record and the old ones.
  refine ⟨?_, ?_, ?_, ?_, ?_, ?_, ?_, ?_, ?_, ?_, ?_⟩
  · rw [hold 0 hk0]; exact h.root_used
  · rw [hold 0 hk0]; exact h.root_type
  · rw [hold 0 hk0]; exact h.root_parent
  · intro i hi hu
    by_cases hik : i = k
    · subst hik
      refine ⟨j, by rw [hnew, newRecord_parent], ?_⟩
      rw [hold j (hc.parent_ne h)]
      exact ⟨hc.parent_used h, hc.parent_dir⟩
    · rw [hold i hik] at hu ⊢
      obtain ⟨m, hm, hmu, hmd⟩ := h.parent i hi hu
      have hmk : m ≠ k := fun he => hmu (he ▸ hc.free)
      exact ⟨m, hm, by rw [hold m hmk]; exact ⟨hmu, hmd⟩⟩
  · intro i hi hu
    by_cases hik : i = k
    · subst hik
      rw [hnew, newRecord_chars type j i hc.good]
      exact ⟨newRecord_terminated type j i x, hc.good⟩
    · rw [hold i hik] at hu ⊢
      exact h.name i hi hu
  · intro i hu
    by_cases hik : i = k
    · subst hik
      rw [hnew, newRecord_type]
      cases type <;> simp
    · rw [hold i hik] at hu ⊢
      exact h.type i hu
  · intro i hu
    by_cases hik : i = k
    · subst hik; rw [hnew, newRecord_size]; exact Nat.zero_le _
    · rw [hold i hik] at hu ⊢
      exact h.size i hu
  · intro i hu htype
    by_cases hik : i = k
    · subst hik; rw [hnew, newRecord_size]
    · rw [hold i hik] at hu htype ⊢
      exact h.dir_size i hu htype
  · intro i hi hu
    by_cases hik : i = k
    · subst hik; rw [hnew, newRecord_dataLba]
    · rw [hold i hik] at hu ⊢
      exact h.lba i hi hu
  · intro i hu
    by_cases hik : i = k
    · exact ⟨q ++ [x], (hc.path_iff h type).mpr (Or.inr ⟨hik, rfl⟩), hc.canonical⟩
    · rw [hold i hik] at hu
      obtain ⟨p, hp, hcan⟩ := h.path i hu
      exact ⟨p, (hc.path_iff h type).mpr (Or.inl hp), hcan⟩
  · exact hc.distinct h type

end Create

/-! ## Clearing -/

section Clear

variable {t : Table} {n : Slot}

theorem used_clear_iff {i : Slot} : (Function.update t n { t n with used := 0 } i).used ≠ 0 ↔
    (t i).used ≠ 0 ∧ i ≠ n := by
  by_cases hi : i = n
  · subst hi; simp
  · simp [hi]

/-- **The tree after a clear**: the one path is gone. -/
theorem Clearable.path_iff (h : Wf t) (hc : Clearable t n) {i : Slot} {p : List (List UInt8)} :
    (links (Function.update t n { t n with used := 0 })).Path i p ↔ (links t).Path i p ∧ i ≠ n := by
  refine Links.path_erase_iff (L := links t)
    (M := links (Function.update t n { t n with used := 0 })) rfl hc.ne_root ?_ ?_ ?_ ?_
  · intro i hu hi hup
    exact hc.leaf i hi hu ((h.up_eq_iff hi hu).mp hup)
  · intro i
    exact used_clear_iff
  · intro i
    by_cases hi : i = n
    · subst hi; simp [links, parentSlot]
    · simp [links, Function.update_of_ne hi]
  · intro i
    by_cases hi : i = n
    · subst hi; simp [links]
    · simp [links, Function.update_of_ne hi]

theorem Clearable.wf (h : Wf t) (hc : Clearable t n) :
    Wf (Function.update t n { t n with used := 0 }) := by
  have hold : ∀ i, i ≠ n → Function.update t n { t n with used := 0 } i = t i :=
    fun i hi => Function.update_of_ne hi _ _
  have hn0 : (0 : Slot) ≠ n := fun he => hc.ne_root he.symm
  refine ⟨?_, ?_, ?_, ?_, ?_, ?_, ?_, ?_, ?_, ?_, ?_⟩
  · rw [hold 0 hn0]; exact h.root_used
  · rw [hold 0 hn0]; exact h.root_type
  · rw [hold 0 hn0]; exact h.root_parent
  · intro i hi hu
    obtain ⟨hu', hin⟩ := used_clear_iff.mp hu
    obtain ⟨m, hm, hmu, hmd⟩ := h.parent i hi hu'
    -- `n` is a leaf, so it is nobody's parent.
    have hmn : m ≠ n := fun he => hc.leaf i hi hu' (he ▸ hm)
    rw [hold i hin]
    exact ⟨m, hm, by rw [hold m hmn]; exact ⟨hmu, hmd⟩⟩
  · intro i hi hu
    obtain ⟨hu, hin⟩ := used_clear_iff.mp hu
    rw [hold i hin]; exact h.name i hi hu
  · intro i hu
    obtain ⟨hu, hin⟩ := used_clear_iff.mp hu
    rw [hold i hin]; exact h.type i hu
  · intro i hu
    obtain ⟨hu, hin⟩ := used_clear_iff.mp hu
    rw [hold i hin]; exact h.size i hu
  · intro i hu
    obtain ⟨hu, hin⟩ := used_clear_iff.mp hu
    rw [hold i hin]; exact h.dir_size i hu
  · intro i hi hu
    obtain ⟨hu, hin⟩ := used_clear_iff.mp hu
    rw [hold i hin]; exact h.lba i hi hu
  · intro i hu
    obtain ⟨hu, hin⟩ := used_clear_iff.mp hu
    obtain ⟨p, hp, hcan⟩ := h.path i hu
    exact ⟨p, (hc.path_iff h).mpr ⟨hp, hin⟩, hcan⟩
  · have hback : ∀ m y i,
        (links (Function.update t n { t n with used := 0 })).IsChild m y i →
        (links t).IsChild m y i := by
      rintro m y i ⟨hu, hi, hup, hy⟩
      obtain ⟨hu, hin⟩ := used_clear_iff.mp hu
      simp only [links, hold i hin] at hup hy
      exact ⟨hu, hi, hup, hy⟩
    intro m y i i' hi hi'
    exact h.distinct m y i i' (hback m y i hi) (hback m y i' hi')

/-- A file has no children. -/
theorem Wf.clearable_file (h : Wf t) (hn : n ≠ 0) (hu : (t n).used ≠ 0)
    (hfile : (t n).type = VfsType.file.code) : Clearable t n := by
  refine ⟨hn, hu, fun i hi hui hpar => ?_⟩
  obtain ⟨m, hm, -, hmd⟩ := h.parent i hi hui
  have : m = n := by
    apply Fin.ext
    exact_mod_cast hm.symm.trans hpar
  rw [this, hfile] at hmd
  exact absurd hmd (by decide)

end Clear

/-! ## Resizing -/

section Resize

variable {t : Table} {n : Slot} {size : UInt32}

/-- Changing a size leaves everything else of every record as it was. -/
theorem resize_apply (i : Slot) :
    Function.update t n { t n with size } i = { t i with size := if i = n then size else (t i).size } := by
  by_cases hi : i = n
  · subst hi; simp
  · simp [hi]

theorem links_resize : links (Function.update t n { t n with size }) = links t := by
  simp only [links, resize_apply, parentSlot]

theorem Writable.wf (h : Wf t) (hw : Writable t n) (hsize : size.toNat ≤ vfsContentMax) :
    Wf (Function.update t n { t n with size }) := by
  refine ⟨?_, ?_, ?_, ?_, ?_, ?_, ?_, ?_, ?_, ?_, ?_⟩ <;> simp only [resize_apply, links_resize]
  · exact h.root_used
  · exact h.root_type
  · exact h.root_parent
  · exact h.parent
  · exact h.name
  · exact h.type
  · intro i hu
    split
    · exact hsize
    · exact h.size i hu
  · intro i hu htype
    split
    · rename_i hin
      -- The record that was resized is a file, so this clause is not about it.
      rw [hin, hw.file] at htype
      exact absurd htype (by decide)
    · exact h.dir_size i hu htype
  · exact h.lba
  · exact h.path
  · exact h.distinct

end Resize

/-- **An edit restores the table invariant.** -/
theorem Edit.wf {t t' : Table} (h : Wf t) (he : Edit t t') : Wf t' := by
  cases he with
  | create type hc => exact hc.wf h type
  | clear hc => exact hc.wf h
  | resize hw hsize => exact hw.wf h hsize

/-- The table `vfs_init` starts from is well formed. -/
theorem wf_initTable : Wf initTable := by
  have hroot : ∀ i, (initTable i).used ≠ 0 → i = 0 := by decide
  refine ⟨by decide, by decide, by decide, ?_, ?_, ?_, ?_, ?_, ?_, ?_, ?_⟩
  · intro i hi hu; exact absurd (hroot i hu) hi
  · intro i hi hu; exact absurd (hroot i hu) hi
  · intro i hu; rw [hroot i hu]; exact Or.inl (by decide)
  · intro i hu; rw [hroot i hu]; exact Nat.zero_le _
  · intro i hu _; rw [hroot i hu]; rfl
  · intro i hi hu; exact absurd (hroot i hu) hi
  · intro i hu
    rw [hroot i hu]
    exact ⟨[], .root, ⟨by simp, by simp, by decide⟩⟩
  · rintro m y i i' ⟨hu, hi, -⟩ -
    exact absurd (hroot i hu) hi

end MinOS.Vfs
