/-
# MinOS.Vfs.Query — what `stat`, `list` and `read` depend on.

On a disk-backed filesystem the content cache is never the source of an answer: `vfs_read` refreshes
the whole row from the file's eight sectors before it copies from it. Two states with the same table,
the same drive statics and the same bytes in the data sectors of the live files therefore answer every
sequence of queries alike (`replies_eq_of_sameFiles`), whatever their caches, generations and metadata
sectors hold. Nothing here assumes a well-formed table: a query that faults does so in both states.
-/
import MinOS.Vfs.Reach

namespace MinOS.Vfs

open MinOS.Ata Machine

/-- The same state on a drive without further errors -/
def State.calm (s : State) : State := { s with drive := Vfs.calm s.drive }

/-- `stat`, `list` or `read` -/
def Op.IsQuery : Op → Prop
  | .read .. | .list .. | .stat .. => True
  | _ => False

/-- A record `find` can return -/
def Findable (t : Table) (n : Slot) : Prop := n = 0 ∨ (t n).used ≠ 0

/-- Two disk-backed states on working drives with the same table and the same file data -/
structure SameFiles (s t : State) : Prop where
  records : t.records = s.records
  backed : s.diskBacked = true ∧ t.diskBacked = true
  present : t.drive.present = s.drive.present
  sectorCount : t.drive.sectorCount = s.drive.sectorCount
  working : s.drive.readScript = [] ∧ t.drive.readScript = []
  data : ∀ n, Findable s.records n → (s.records n).type = VfsType.file.code → ∀ i,
    t.drive.sectors (lbaAdd (s.records n).dataLba i).toNat
      = s.drive.sectors (lbaAdd (s.records n).dataLba i).toNat

/-! ## What `find` returns -/

theorem findable_of_findLoop {t : Table} {normalized : List UInt8} {n : Slot} (is : List Slot)
    (h : findLoop t normalized is = .ok (some n)) : (t n).used ≠ 0 := by
  induction is with
  | nil => cases h
  | cons i is ih =>
    rw [findLoop] at h
    by_cases hu : (t i).used = 0
    · rw [if_pos hu] at h
      exact ih h
    · rw [if_neg hu] at h
      by_cases hp : (t i).parent.toInt < 0
      · rw [if_pos hp] at h
        exact ih h
      · rw [if_neg hp, bind_eq_ok_iff] at h
        obtain ⟨c, -, h⟩ := h
        split at h
        · cases h
          exact hu
        · exact ih h

theorem findable_of_find {t : Table} {path : List UInt8} {n : Slot}
    (h : find t path = .ok (some n)) : Findable t n := by
  rw [find, bind_eq_ok_iff] at h
  obtain ⟨c, -, h⟩ := h
  cases c with
  | none => cases h
  | some c =>
    dsimp only at h
    split at h
    · cases h
      exact Or.inl rfl
    · exact Or.inr (findable_of_findLoop slots h)

/-! ## Indistinguishable states -/

section Alike

variable {s t : State} (h : SameFiles s t)
include h

theorem SameFiles.refresh (n : Slot) : SameFiles (refresh s n).2 (refresh t n).2 := by
  obtain ⟨sp, sc, ss, -⟩ := refresh_frame s n
  obtain ⟨tp, tc, ts, -⟩ := refresh_frame t n
  refine ⟨by simpa using h.records, by simpa using h.backed, ?_, ?_, ?_, ?_⟩
  · rw [sp, tp]; exact h.present
  · rw [sc, tc]; exact h.sectorCount
  · exact ⟨refresh_readScript_of_nil n h.working.1, refresh_readScript_of_nil n h.working.2⟩
  · rw [ss, ts, refresh_records]
    exact h.data

theorem SameFiles.refresh_fst (n : Slot) : (Vfs.refresh t n).1 = (Vfs.refresh s n).1 := by
  rw [Bool.eq_iff_iff, refresh_fst_iff h.backed.2 h.working.2, refresh_fst_iff h.backed.1 h.working.1,
    h.records]
  exact ⟨fun hs => hs.congr h.present.symm h.sectorCount.symm,
    fun hs => hs.congr h.present h.sectorCount⟩

theorem SameFiles.refresh_contents {n : Slot} (hn : Findable s.records n)
    (hf : (s.records n).type = VfsType.file.code) (hok : (Vfs.refresh s n).1 = true) :
    (Vfs.refresh t n).2.contents n = (Vfs.refresh s n).2.contents n := by
  rw [Vfs.refresh_contents h.backed.1 hok,
    Vfs.refresh_contents h.backed.2 (by rw [h.refresh_fst]; exact hok), h.records]
  exact blockAt_congr (h.data n hn hf)

theorem SameFiles.read (path : List UInt8) (cap : UInt32) :
    Alike SameFiles (vfsRead s path cap) (vfsRead t path cap) := by
  rw [vfsRead, vfsRead, h.records]
  cases hfind : find s.records path with
  | error e => exact .fault e
  | ok r =>
    rw [ok_bind, ok_bind]
    cases r with
    | none => exact .reply none h
    | some n =>
      dsimp only
      by_cases hf : (s.records n).type = VfsType.file.code
      · rw [if_neg (not_not.mpr hf), if_neg (not_not.mpr hf)]
        have hfst := h.refresh_fst n
        have hcontents := h.refresh_contents (findable_of_find hfind) hf
        have hnext := h.refresh n
        cases hs : Vfs.refresh s n with
        | mk ok s' =>
          cases ht : Vfs.refresh t n with
          | mk ok' t' =>
            rw [hs, ht] at hfst hcontents hnext
            dsimp only at hfst hcontents hnext
            subst hfst
            cases ok' with
            | false => exact .reply none hnext
            | true =>
              dsimp only
              rw [hcontents rfl, hnext.records]
              split
              · exact .reply _ hnext
              · exact .fault _
      · rw [if_pos hf, if_pos hf]
        exact .reply none h

/-- One query -/
theorem SameFiles.step {q : Op} (hq : q.IsQuery) : Alike SameFiles (step s q) (step t q) := by
  cases q with
  | read p cap =>
    have hread := h.read p.chars cap
    simp only [Vfs.step]
    generalize vfsRead s p.chars cap = x at hread ⊢
    generalize vfsRead t p.chars cap = y at hread ⊢
    cases hread with
    | fault e => exact .fault e
    | reply r h' => exact .reply _ h'
  | list p max =>
    have hlist : vfsList t p.chars max = vfsList s p.chars max := by
      simp only [vfsList, h.records]
    simp only [Vfs.step, hlist]
    cases vfsList s p.chars max with
    | error e => exact .fault e
    | ok es => exact .reply _ h
  | stat p =>
    have hstat : vfsStatPath t p.chars = vfsStatPath s p.chars := by
      simp only [vfsStatPath, h.records]
    simp only [Vfs.step, hstat]
    cases vfsStatPath s p.chars with
    | error e => exact .fault e
    | ok st => exact .reply _ h
  | mkdir | rmdir | touch | remove | write | copy | move => exact hq.elim

/-- **Any sequence of queries** is answered alike. -/
theorem replies_eq_of_sameFiles {qs : List Op} (hqs : ∀ q ∈ qs, q.IsQuery) :
    replies step s qs = replies step t qs :=
  replies_eq (fun _ _ _ hq hst => hst.step hq) qs s t hqs h

end Alike

end MinOS.Vfs
