/-
# MinOS.Mkdisk.Tail — the FAT volume of the boot disk and the VFS behind it.

The last 512 sectors of the disk belong to the VFS. `create_fat16_image` never compares the file with them: it stops
only when the allocation table has no entry left for a cluster, and the table has entries for 167 clusters that are in
the tail or behind it. A file that needs one of them is written over the first sectors of the VFS, and one that needs
most of them makes the image longer than the disk.
-/
import MinOS.Mkdisk

namespace MinOS.Mkdisk

open Buffer

/-! ## Sectors -/

/-- Where the first copy of the table starts -/
def fatOffset : Nat := reservedSectors * sectorSize

/-- The first sector of cluster 2 -/
def dataSector : Nat := reservedSectors + numFats * sectorsPerFat + rootDirSectors

/-- The first sector of a cluster -/
def clusterSector (c : Nat) : Nat := dataSector + (c - 2) * sectorsPerCluster

/-- The image's own table has an entry for the cluster. -/
def Allocated (v : List UInt8) (c : Nat) : Prop :=
  2 ≤ c ∧ c < sectorsPerFat * sectorSize / 2 ∧ word 2 v (fatOffset + c * 2) ≠ 0

/-- What is promised of an image: the clusters in use are before the tail, the tail is empty, and the image is as long
as the disk. -/
structure KeepsOut (v : List UInt8) : Prop where
  clusters : ∀ c, Allocated v c → clusterSector c + sectorsPerCluster ≤ Vfs.vfsMetaLba.toNat
  tail : ∀ s, Vfs.vfsMetaLba.toNat ≤ s → s < Vfs.vfsDiskEndLba → region v (s * sectorSize) sectorSize = zeros sectorSize
  length : v.length = Vfs.vfsDiskEndLba * sectorSize

/-! ## The table -/

/-- The table has 16384 entries, so that the loop can go no further. -/
theorem room_of_fatLoop {needed count i : Nat} {fat fat' : List UInt8} (hfat : fat.length = 32768)
    (h : fatLoop needed count i fat = some fat') : count = 0 ∨ 4 + (i + count) ≤ 16384 := by
  induction count generalizing i fat with
  | zero => exact Or.inl rfl
  | succ count ih =>
    rw [fatLoop, Option.bind_eq_bind, Option.bind_eq_some_iff] at h
    obtain ⟨next, hpack, hrest⟩ := h
    unfold packEntry firstFileCluster at hpack
    obtain ⟨hfits, hput⟩ := Option.ite_none_right_eq_some.mp hpack
    have hlength : next.length = 32768 := by
      rw [← Option.some.inj hput, length_put, hfat]
      rw [Field.stop, length_leBytes]
      exact hfits.1
    rcases ih hlength hrest with hzero | hroom
    · omega
    · omega

theorem room_of_makeFat {needed : Nat} {fat : List UInt8} (h : makeFat needed = some fat) : needed ≤ 16380 := by
  have := room_of_fatLoop (fatIs_head needed).length h
  omega

/-- The parts of an image, whatever its size -/
theorem parts_of_createFat16Image {efiData v : List UInt8} (h : createFat16Image efiData = some v) :
    ∃ fat, clustersNeeded efiData.length ≤ 16380 ∧
      FatIs fat (clustersNeeded efiData.length) (clustersNeeded efiData.length) ∧ region v 2048 32768 = fat := by
  simp only [createFat16Image, Option.bind_eq_bind, Option.bind_eq_some_iff] at h
  obtain ⟨fat, hfat, rootDir, -, efiDir, -, bootDir, -, himage⟩ := h
  have hroom := room_of_makeFat hfat
  obtain ⟨fat', hfat', fatIs⟩ := exists_makeFat hroom
  obtain rfl : fat' = fat := Option.some.inj (hfat'.symm.trans hfat)
  refine ⟨fat', hroom, fatIs, ?_⟩
  have hgap : (zeros (sectorSize * (reservedSectors - 1))).length = 1536 := length_zeros _
  rw [← Option.some.inj himage, written, List.append_assoc, List.append_assoc, List.append_assoc,
    region_append_right (by simp [length_bootSector]), length_bootSector,
    region_append_right (by simp [hgap]), hgap]
  exact region_append_front fatIs.length

/-- The entries of the table of the image -/
theorem word_image {v fat : List UInt8} {needed c : Nat} (hfat : FatIs fat needed needed)
    (hv : region v 2048 32768 = fat) (hc : c < 16384) : word 2 v (fatOffset + c * 2) = linked needed needed c := by
  rw [← hfat.entry c hc, ← hv, word_region (by omega)]
  rfl

/-! ## The tail -/

/-- A file of at most 16213 clusters stays before it. -/
theorem keepsOut_of_room {efiData v : List UInt8} (h : createFat16Image efiData = some v)
    (hroom : clustersNeeded efiData.length ≤ 16213) : KeepsOut v := by
  obtain ⟨v', fat, rootDir, efiDir, bootDir, hv', hlaid, fatIs, -⟩ := exists_createFat16Image hroom
  obtain rfl : v' = v := Option.some.inj (hv'.symm.trans h)
  refine ⟨?_, ?_, hlaid.length⟩
  · rintro c ⟨hlow, hhigh, hentry⟩
    rw [word_image fatIs hlaid.fat₀ hhigh] at hentry
    have hused : c < 4 + clustersNeeded efiData.length := by
      by_contra hfree
      exact hentry (by rw [linked, if_neg (by omega), if_neg (by omega), if_neg hfree])
    show 164 + (c - 2) * 4 + 4 ≤ 65024
    omega
  · exact fun _ => hlaid.tail_sectors

/-- The last cluster of a larger file is in it. -/
theorem room_of_keepsOut {efiData v : List UInt8} (h : createFat16Image efiData = some v) (hv : KeepsOut v) :
    clustersNeeded efiData.length ≤ 16213 := by
  obtain ⟨fat, hroom, fatIs, hfat⟩ := parts_of_createFat16Image h
  by_contra hlarge
  have hlast : Allocated v (3 + clustersNeeded efiData.length) := by
    refine ⟨by omega, ?_, ?_⟩
    · show 3 + clustersNeeded efiData.length < 16384
      omega
    · rw [word_image fatIs hfat (by omega), linked, if_neg (by omega), if_neg (by omega), if_pos (by omega),
        if_pos (by omega)]
      decide
  have hbefore : 164 + (3 + clustersNeeded efiData.length - 2) * 4 + 4 ≤ 65024 := hv.clusters _ hlast
  omega

/-- **The image builder keeps the FAT volume out of the VFS tail** if and only if the file has at most 33204224 bytes,
the size of the clusters before the tail that are left for it. -/
theorem createFat16Image_keepsOut_iff (efiData v : List UInt8) (h : createFat16Image efiData = some v) :
    KeepsOut v ↔ efiData.length ≤ 33204224 := by
  have hneeded : clustersNeeded efiData.length ≤ 16213 ↔ efiData.length ≤ 33204224 := by
    unfold clustersNeeded clusterSize sectorSize sectorsPerCluster
    omega
  rw [← hneeded]
  exact ⟨room_of_keepsOut h, keepsOut_of_room h⟩

/-- Which files the builder accepts: those the table has entries for -/
theorem exists_createFat16Image_iff (efiData : List UInt8) :
    (∃ v, createFat16Image efiData = some v) ↔ efiData.length ≤ 33546240 := by
  have hneeded : clustersNeeded efiData.length ≤ 16380 ↔ efiData.length ≤ 33546240 := by
    unfold clustersNeeded clusterSize sectorSize sectorsPerCluster
    omega
  rw [← hneeded]
  constructor
  · rintro ⟨v, h⟩
    obtain ⟨-, hroom, -⟩ := parts_of_createFat16Image h
    exact hroom
  · intro hroom
    obtain ⟨fat, hfat, -⟩ := exists_makeFat hroom
    obtain ⟨rootDir, -, hroot, -⟩ := exists_makeRootDir
    obtain ⟨efiDir, -, hefiDir, -⟩ := exists_makeEfiDir
    obtain ⟨bootDir, -, hbootDir, -⟩ := exists_makeBootDir (show efiData.length < 2 ^ 32 by omega)
    rw [createFat16Image, hfat, hroot, hefiDir, hbootDir]
    exact ⟨_, rfl⟩

/-- A file of three bytes -/
theorem createFat16Image_keepsOut_small : ∃ v, createFat16Image [0x4D, 0x5A, 0x90] = some v ∧ KeepsOut v := by
  obtain ⟨v, hv⟩ := (exists_createFat16Image_iff [0x4D, 0x5A, 0x90]).mpr (by decide)
  exact ⟨v, hv, (createFat16Image_keepsOut_iff _ v hv).mpr (by decide)⟩

/-- One byte more than there is room for: the image is made, and its last cluster is the first of the tail. -/
theorem createFat16Image_overwrites_tail :
    ∃ v, createFat16Image (zeros 33204225) = some v ∧ ¬ KeepsOut v := by
  have hlength : (zeros 33204225).length = 33204225 := length_zeros _
  obtain ⟨v, hv⟩ := (exists_createFat16Image_iff (zeros 33204225)).mpr (by rw [hlength]; decide)
  refine ⟨v, hv, fun hkeeps => ?_⟩
  have hroom := room_of_keepsOut hv hkeeps
  rw [hlength] at hroom
  exact absurd hroom (by decide)

end MinOS.Mkdisk
