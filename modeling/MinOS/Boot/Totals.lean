/-
# MinOS.Boot.Totals — the two byte totals of `update_boot_info`.

Sizes saturate twice: the bytes of a region at `UINT64_MAX`, and then each sum. Clamping numbers from above is a
homomorphism onto the saturating sums (`clamp_add_clamp`), so that a chain of them is one clamp of the exact sum.
-/
import Mathlib.Algebra.BigOperators.Group.List.Basic
import Mathlib.Algebra.Ring.Nat
import MinOS.Handoff

namespace MinOS.Boot

/-! ## Saturating sums -/

/-- The largest number of 64 bits, where larger ones end up -/
def clamp (n : Nat) : Nat := min n (2 ^ 64 - 1)

/-- Clamping on the way does not show in the end. -/
theorem clamp_add_clamp (m n : Nat) : clamp (clamp m + clamp n) = clamp (m + n) := by
  unfold clamp
  omega

theorem clamp_clamp_add (m n : Nat) : clamp (clamp m + n) = clamp (m + n) := by
  unfold clamp
  omega

theorem clamp_mono {m n : Nat} (h : m ≤ n) : clamp m ≤ clamp n := by
  unfold clamp
  omega

theorem toNat_eq_clamp (n : UInt64) : n.toNat = clamp n.toNat := by
  have := n.toNat_lt
  unfold clamp
  omega

theorem toNat_addSaturating (left right : UInt64) :
    (addSaturating left right).toNat = clamp (left.toNat + right.toNat) := by
  have hleft := left.toNat_lt
  have hright := right.toNat_lt
  have hmax : uint64Max.toNat = 2 ^ 64 - 1 := rfl
  have hroom : (uint64Max - left).toNat = 2 ^ 64 - 1 - left.toNat := by
    rw [UInt64.toNat_sub, hmax]
    omega
  unfold addSaturating clamp
  split
  · rename_i hfull
    rw [gt_iff_lt, UInt64.lt_iff_toNat_lt, hroom] at hfull
    omega
  · rename_i hfits
    rw [gt_iff_lt, UInt64.lt_iff_toNat_lt, hroom] at hfits
    rw [UInt64.toNat_add]
    omega

/-- The bytes of a region -/
def EfiMemoryDescriptor.bytes (desc : EfiMemoryDescriptor) : Nat := 4096 * desc.numberOfPages.toNat

/-- 2^52 - 1 pages are the most whose bytes can be counted. -/
theorem toNat_regionSize (desc : EfiMemoryDescriptor) : (regionSize desc).toNat = clamp desc.bytes := by
  have hpages := desc.numberOfPages.toNat_lt
  have hmax : uint64Max.toNat = 2 ^ 64 - 1 := rfl
  have hbound : (uint64Max / 4096).toNat = 2 ^ 52 - 1 := rfl
  have h4096 : (4096 : UInt64).toNat = 4096 := rfl
  unfold regionSize clamp EfiMemoryDescriptor.bytes
  split
  · rename_i hfull
    rw [gt_iff_lt, UInt64.lt_iff_toNat_lt, hbound] at hfull
    omega
  · rename_i hfits
    rw [gt_iff_lt, UInt64.lt_iff_toNat_lt, hbound] at hfits
    rw [UInt64.toNat_mul, h4096]
    omega

/-! ## The loop -/

/-- The types that count as usable -/
def usableTypes : List UInt32 :=
  [efiConventionalMemory, efiBootServicesCode, efiBootServicesData, efiLoaderCode, efiLoaderData]

theorem countsAsUsable_eq (desc : EfiMemoryDescriptor) : countsAsUsable desc = decide (desc.type ∈ usableTypes) := by
  rw [Bool.eq_iff_iff]
  simp [countsAsUsable, usableTypes, or_assoc]

/-- The exact number of bytes in a list of regions -/
def bytesOf (descs : List EfiMemoryDescriptor) : Nat := (descs.map EfiMemoryDescriptor.bytes).sum

/-- The regions that count as usable -/
def usableOf (descs : List EfiMemoryDescriptor) : List EfiMemoryDescriptor :=
  descs.filter fun desc => decide (desc.type ∈ usableTypes)

theorem bytesOf_cons (desc : EfiMemoryDescriptor) (descs : List EfiMemoryDescriptor) :
    bytesOf (desc :: descs) = desc.bytes + bytesOf descs := rfl

theorem bytesOf_usableOf_cons (desc : EfiMemoryDescriptor) (descs : List EfiMemoryDescriptor) :
    bytesOf (usableOf (desc :: descs)) = (if desc.type ∈ usableTypes then desc.bytes else 0) +
      bytesOf (usableOf descs) := by
  unfold usableOf
  by_cases husable : desc.type ∈ usableTypes
  · simp [husable, bytesOf_cons]
  · simp [husable]

theorem toNat_sumRegion (sums : UInt64 × UInt64) (desc : EfiMemoryDescriptor) :
    (sumRegion sums desc).1.toNat = clamp (sums.1.toNat + desc.bytes) ∧
      (sumRegion sums desc).2.toNat = clamp (sums.2.toNat + if desc.type ∈ usableTypes then desc.bytes else 0) := by
  have hstep : ∀ sum : UInt64, (addSaturating sum (regionSize desc)).toNat = clamp (sum.toNat + desc.bytes) := by
    intro sum
    rw [toNat_addSaturating, toNat_regionSize, toNat_eq_clamp sum, clamp_add_clamp, ← toNat_eq_clamp sum]
  refine ⟨hstep sums.1, ?_⟩
  rw [sumRegion, countsAsUsable_eq]
  by_cases husable : desc.type ∈ usableTypes
  · simp [husable, hstep]
  · simp [husable, ← toNat_eq_clamp]

/-- **The loop** of `update_boot_info` adds up the whole list and clamps once. -/
theorem toNat_foldl_sumRegion (descs : List EfiMemoryDescriptor) (sums : UInt64 × UInt64) :
    (descs.foldl sumRegion sums).1.toNat = clamp (sums.1.toNat + bytesOf descs) ∧
      (descs.foldl sumRegion sums).2.toNat = clamp (sums.2.toNat + bytesOf (usableOf descs)) := by
  induction descs generalizing sums with
  | nil => exact ⟨toNat_eq_clamp _, toNat_eq_clamp _⟩
  | cons desc descs ih =>
    obtain ⟨htotal, husable⟩ := ih (sumRegion sums desc)
    obtain ⟨hfirst, hsecond⟩ := toNat_sumRegion sums desc
    rw [List.foldl_cons, htotal, husable, hfirst, hsecond, clamp_clamp_add, clamp_clamp_add, bytesOf_cons,
      bytesOf_usableOf_cons, Nat.add_assoc, Nat.add_assoc]
    exact ⟨rfl, rfl⟩

theorem bytesOf_usableOf_le (descs : List EfiMemoryDescriptor) : bytesOf (usableOf descs) ≤ bytesOf descs := by
  induction descs with
  | nil => exact Nat.le_refl _
  | cons desc descs ih =>
    rw [bytesOf_usableOf_cons, bytesOf_cons]
    split <;> omega

theorem bytesOf_perm {descs descs' : List EfiMemoryDescriptor} (h : descs.Perm descs') :
    bytesOf descs = bytesOf descs' := (h.map _).sum_eq

theorem usableOf_perm {descs descs' : List EfiMemoryDescriptor} (h : descs.Perm descs') :
    (usableOf descs).Perm (usableOf descs') := h.filter _

/-! ## `update_boot_info` -/

/-- The entries of a map of `mapSize` bytes -/
def entriesOf (mapSize descSize : UInt64) (descriptorAt : Nat → EfiMemoryDescriptor) : List EfiMemoryDescriptor :=
  (List.range (mapSize / descSize).toNat).map descriptorAt

/-- The totals in `info` are those of the regions. -/
structure HasTotals (info : BootInfo) (descs : List EfiMemoryDescriptor) : Prop where
  total : info.totalMemoryBytes.toNat = min (bytesOf descs) (2 ^ 64 - 1)
  usable : info.usableMemoryBytes.toNat = min (bytesOf (usableOf descs)) (2 ^ 64 - 1)
  le : info.usableMemoryBytes ≤ info.totalMemoryBytes

theorem hasTotals_updateBootInfo (info : BootInfo) {memMap descSize : UInt64} (hmap : memMap ≠ 0)
    (hdesc : descSize ≠ 0) (mapSize : UInt64) (descVer : UInt32) (descriptorAt : Nat → EfiMemoryDescriptor) :
    HasTotals (updateBootInfo info memMap mapSize descSize descVer descriptorAt)
      (entriesOf mapSize descSize descriptorAt) := by
  have hplaced : (info.withMap memMap mapSize descSize descVer descriptorAt).HasMap := ⟨hmap, hdesc⟩
  have hentries : (info.withMap memMap mapSize descSize descVer descriptorAt).descriptors =
      entriesOf mapSize descSize descriptorAt := if_pos hplaced
  obtain ⟨htotal, husable⟩ := toNat_foldl_sumRegion (entriesOf mapSize descSize descriptorAt) (0, 0)
  rw [UInt64.toNat_zero, Nat.zero_add] at htotal husable
  simp only [updateBootInfo, if_pos hplaced, hentries]
  refine ⟨htotal, husable, ?_⟩
  rw [UInt64.le_iff_toNat_le, htotal, husable]
  exact clamp_mono (bytesOf_usableOf_le _)

/-- Totals of the same regions in any order -/
theorem HasTotals.eq_of_perm {info info' : BootInfo} {descs descs' : List EfiMemoryDescriptor}
    (h : HasTotals info descs) (h' : HasTotals info' descs') (hperm : descs.Perm descs') :
    info.totalMemoryBytes = info'.totalMemoryBytes ∧ info.usableMemoryBytes = info'.usableMemoryBytes := by
  constructor
  · rw [← UInt64.toNat_inj, h.total, h'.total, bytesOf_perm hperm]
  · rw [← UInt64.toNat_inj, h.usable, h'.usable, bytesOf_perm (usableOf_perm hperm)]

/-- **The memory totals are exact up to saturation**, whatever the entries of the map and their size are, and they do
not depend on the order of the entries. -/
theorem updateBootInfo_totals (info : BootInfo) {memMap descSize : UInt64} (hmap : memMap ≠ 0) (hdesc : descSize ≠ 0)
    (mapSize : UInt64) (descVer : UInt32) (descriptorAt : Nat → EfiMemoryDescriptor) :
    HasTotals (updateBootInfo info memMap mapSize descSize descVer descriptorAt)
        (entriesOf mapSize descSize descriptorAt) ∧
      ∀ reordered, (entriesOf mapSize descSize reordered).Perm (entriesOf mapSize descSize descriptorAt) →
        (updateBootInfo info memMap mapSize descSize descVer reordered).totalMemoryBytes =
            (updateBootInfo info memMap mapSize descSize descVer descriptorAt).totalMemoryBytes ∧
          (updateBootInfo info memMap mapSize descSize descVer reordered).usableMemoryBytes =
            (updateBootInfo info memMap mapSize descSize descVer descriptorAt).usableMemoryBytes := by
  have htotals := hasTotals_updateBootInfo info hmap hdesc mapSize descVer
  exact ⟨htotals descriptorAt, fun reordered hperm => (htotals reordered).eq_of_perm (htotals descriptorAt) hperm⟩

/-- Three entries, the first of them one page more than 64 bits can count -/
def hugeMap : Nat → EfiMemoryDescriptor
  | 0 => ⟨0, 0, 0x10000000000000⟩
  | 1 => ⟨efiConventionalMemory, 0, 16⟩
  | _ => ⟨efiLoaderData, 0, 2⟩

theorem updateBootInfo_totals_huge :
    HasTotals (updateBootInfo blankInfo 0x8000 150 48 1 hugeMap) [hugeMap 0, hugeMap 1, hugeMap 2] :=
  (@updateBootInfo_totals blankInfo 0x8000 48 (by decide) (by decide) 150 1 hugeMap).1

end MinOS.Boot
