/-
# MinOS.Mkdisk — the boot disk of `tools/mkdisk.py` is a FAT16 volume that holds the EFI file.

`create_fat16_image` computes the offsets of its structures once, as sizes of what it writes one after the
other; a reader computes them again from the numbers in the boot sector. The round trip is that the two
agree for a file of any size: reading `\EFI\BOOT\BOOTX64.EFI` with `MinOS.Lib.Fat16` gives the file back.

`struct.pack_into` raises an exception when the number or the place does not fit; the model has `none` for
that, where the numbers depend on the file.
-/
import Mathlib.Data.List.Range
import Mathlib.Tactic.IntervalCases
import Mathlib.Tactic.SplitIfs
import MinOS.Lib.Fat16
import MinOS.Vfs.Model

namespace MinOS.Mkdisk

open Buffer Fat16

/-! ## Constants -/

/-- `SECTOR_SIZE` -/
def sectorSize : Nat := 512
/-- `SECTORS_PER_CLUSTER` -/
def sectorsPerCluster : Nat := 4
/-- `CLUSTER_SIZE` -/
def clusterSize : Nat := sectorSize * sectorsPerCluster
/-- `IMAGE_TOTAL_SECTORS`, `TOTAL_SECTORS` -/
def imageTotalSectors : Nat := 65536
/-- `VFS_META_SECTORS` -/
def vfsMetaSectors : Nat := 8
/-- `VFS_DATA_SECTORS_PER_FILE` -/
def vfsDataSectorsPerFile : Nat := 8
/-- `VFS_FILE_MAX` -/
def vfsFileMax : Nat := 64
/-- `VFS_RESERVED_SECTORS` -/
def vfsReservedSectors : Nat := vfsMetaSectors + (vfsFileMax - 1) * vfsDataSectorsPerFile
/-- `FAT_TOTAL_SECTORS` -/
def fatTotalSectors : Nat := imageTotalSectors - vfsReservedSectors
/-- `RESERVED_SECTORS` -/
def reservedSectors : Nat := 4
/-- `NUM_FATS` -/
def numFats : Nat := 2
/-- `ROOT_ENTRIES` -/
def rootEntries : Nat := 512
/-- `ROOT_DIR_SECTORS` -/
def rootDirSectors : Nat := rootEntries * 32 / sectorSize
/-- `SECTORS_PER_FAT` -/
def sectorsPerFat : Nat := 64

/-- `bytearray(n)` -/
def zeros (n : Nat) : List UInt8 := List.replicate n 0

/-! ## Directory entries -/

/-- `s.ljust(n)[:n].encode('ascii')` -/
def padded (n : Nat) (s : List Char) : List UInt8 :=
  ((s ++ List.replicate (n - s.length) ' ').take n).map fun c => UInt8.ofNat c.toNat

/-- The fields of a directory entry -/
def dirFields (name8 ext3 : List Char) (attr : UInt8) (firstCluster size : Nat) : List Field :=
  [⟨0, padded 8 name8⟩, ⟨8, padded 3 ext3⟩, ⟨11, [attr]⟩, ⟨22, leBytes 2 0x5800⟩, ⟨24, leBytes 2 0x5D33⟩,
    ⟨26, leBytes 2 firstCluster⟩, ⟨28, leBytes 4 size⟩]

/-- `make_dir_entry` -/
def makeDirEntry (name8 ext3 : List Char) (attr : UInt8) (firstCluster size : Nat) :
    Option (List UInt8) :=
  if firstCluster < 2 ^ 16 ∧ size < 2 ^ 32 then
    some (puts (dirFields name8 ext3 attr firstCluster size) (zeros 32))
  else none

/-! ## The boot sector -/

/-- The assignments to `boot_sector`, in order -/
def bootFields : List Field :=
  [⟨0, [0xEB, 0x3C, 0x90]⟩,
    ⟨3, padded 8 ['M', 'I', 'N', 'O', 'S', '1', '.', '0']⟩,
    ⟨11, leBytes 2 sectorSize⟩,
    ⟨13, leBytes 1 sectorsPerCluster⟩,
    ⟨14, leBytes 2 reservedSectors⟩,
    ⟨16, leBytes 1 numFats⟩,
    ⟨17, leBytes 2 rootEntries⟩,
    ⟨19, leBytes 2 0⟩,
    ⟨21, [0xF8]⟩,
    ⟨22, leBytes 2 sectorsPerFat⟩,
    ⟨24, leBytes 2 63⟩,
    ⟨26, leBytes 2 255⟩,
    ⟨28, leBytes 4 0⟩,
    ⟨32, leBytes 4 fatTotalSectors⟩,
    ⟨36, [0x80]⟩,
    ⟨38, [0x29]⟩,
    ⟨39, leBytes 4 0x19940520⟩,
    ⟨43, padded 11 ['M', 'I', 'N', 'O', 'S', ' ', 'B', 'O', 'O', 'T', ' ']⟩,
    ⟨54, padded 8 ['F', 'A', 'T', '1', '6', ' ', ' ', ' ']⟩,
    ⟨510, [0x55, 0xAA]⟩]

def bootSector : List UInt8 := puts bootFields (zeros sectorSize)

/-! ## The allocation table -/

/-- `struct.pack_into('<H', fat, c * 2, value)` -/
def packEntry (c value : Nat) (fat : List UInt8) : Option (List UInt8) :=
  if c * 2 + 2 ≤ fat.length ∧ value < 2 ^ 16 then some (put ⟨c * 2, leBytes 2 value⟩ fat) else none

/-- Media byte, end of chain, and the clusters of the two directories -/
def fatFields : List Field :=
  [⟨0, leBytes 2 0xFFF8⟩, ⟨2, leBytes 2 0xFFFF⟩, ⟨2 * 2, leBytes 2 0xFFFF⟩, ⟨3 * 2, leBytes 2 0xFFFF⟩]

/-- The table before the file -/
def fatHead : List UInt8 := puts fatFields (zeros (sectorsPerFat * sectorSize))

/-- `first_file_cluster` -/
def firstFileCluster : Nat := 4

/-- `for i in range(efi_clusters_needed)`, from `i` on -/
def fatLoop (needed : Nat) : (count i : Nat) → List UInt8 → Option (List UInt8)
  | 0, _, fat => some fat
  | count + 1, i, fat => do
    let c := firstFileCluster + i
    let fat ← packEntry c (if i + 1 = needed then 0xFFFF else c + 1) fat
    fatLoop needed count (i + 1) fat

/-- `fat` -/
def makeFat (needed : Nat) : Option (List UInt8) := fatLoop needed needed 0 fatHead

/-! ## The image -/

/-- `efi_clusters_needed`: `math.ceil(efi_size / CLUSTER_SIZE)`, where the quotient of the two numbers is
exact -/
def clustersNeeded (efiSize : Nat) : Nat := (efiSize + (clusterSize - 1)) / clusterSize

/-- `root_dir` -/
def makeRootDir : Option (List UInt8) := do
  let label ← makeDirEntry ['M', 'I', 'N', 'O', 'S', ' ', 'B', 'O', 'O', 'T'] [] 0x08 0 0
  let efi ← makeDirEntry ['E', 'F', 'I'] [] 0x10 2 0
  some (puts [⟨0, label⟩, ⟨32, efi⟩] (zeros (rootDirSectors * sectorSize)))

/-- A directory cluster: `.`, `..` and one more entry -/
def makeDirCluster (self parent : Nat) (entry : List UInt8) : Option (List UInt8) := do
  let dot ← makeDirEntry ['.'] [] 0x10 self 0
  let dotdot ← makeDirEntry ['.', '.'] [] 0x10 parent 0
  some (puts [⟨0, dot⟩, ⟨32, dotdot⟩, ⟨64, entry⟩] (zeros clusterSize))

/-- `efi_dir_cluster` -/
def makeEfiDir : Option (List UInt8) := do
  let boot ← makeDirEntry ['B', 'O', 'O', 'T'] [] 0x10 3 0
  makeDirCluster 2 0 boot

/-- `boot_dir_cluster` -/
def makeBootDir (efiSize : Nat) : Option (List UInt8) := do
  let file ← makeDirEntry ['B', 'O', 'O', 'T', 'X', '6', '4'] ['E', 'F', 'I'] 0x20 firstFileCluster efiSize
  makeDirCluster 3 2 file

/-- What is written up to the end of the file's clusters -/
def written (fat rootDir efiDir bootDir efiData : List UInt8) : List UInt8 :=
  bootSector ++ (zeros (sectorSize * (reservedSectors - 1)) ++ (fat ++ (fat ++ (rootDir ++ (efiDir ++
    (bootDir ++ (efiData ++ zeros (clustersNeeded efiData.length * clusterSize - efiData.length))))))))

/-- `create_fat16_image`: the bytes of the image -/
def createFat16Image (efiData : List UInt8) : Option (List UInt8) := do
  let fat ← makeFat (clustersNeeded efiData.length)
  let rootDir ← makeRootDir
  let efiDir ← makeEfiDir
  let bootDir ← makeBootDir efiData.length
  let image := written fat rootDir efiDir bootDir efiData
  some (image ++ zeros (imageTotalSectors * sectorSize - image.length))

/-! ## The table -/

/-- What the table has for cluster `c` when the first `count` clusters of the file are linked -/
def linked (needed count c : Nat) : Nat :=
  if c = 0 then 0xFFF8
  else if c < 4 then 0xFFFF
  else if c < 4 + count then if c + 1 = 4 + needed then 0xFFFF else c + 1
  else 0

theorem linked_new (needed count : Nat) :
    linked needed (count + 1) (firstFileCluster + count) =
      if count + 1 = needed then 0xFFFF else firstFileCluster + count + 1 := by
  unfold linked firstFileCluster
  split_ifs <;> omega

theorem linked_old {needed count c : Nat} (h : c ≠ firstFileCluster + count) :
    linked needed (count + 1) c = linked needed count c := by
  unfold firstFileCluster at h
  unfold linked
  split_ifs <;> omega

/-- The table is as long as it should be and has the entries it should have. -/
structure FatIs (fat : List UInt8) (needed count : Nat) : Prop where
  length : fat.length = 32768
  entry : ∀ c, c < 16384 → word 2 fat (c * 2) = linked needed count c

theorem fatIs_head (needed : Nat) : FatIs fatHead needed 0 := by
  have hzeros : (zeros (sectorsPerFat * sectorSize)).length = 32768 := List.length_replicate
  have hfits : ∀ f ∈ fatFields, f.stop ≤ (zeros (sectorsPerFat * sectorSize)).length := by
    rw [hzeros]
    decide
  have hentry : ∀ {c n : Nat}, (⟨c * 2, leBytes 2 n⟩ : Field) ∈ fatFields → n < 256 ^ 2 →
      word 2 fatHead (c * 2) = n := fun hf hn => word_puts hf hfits (by decide) hn
  refine ⟨(length_puts hfits).trans hzeros, ?_⟩
  intro c hc
  by_cases hlow : c < 4
  · have hall : ∀ c < 4, word 2 fatHead (c * 2) = linked needed 0 c := by
      intro c hc
      interval_cases c
      · exact hentry (c := 0) (n := 0xFFF8) (by simp [fatFields]) (by decide)
      · exact hentry (c := 1) (n := 0xFFFF) (by simp [fatFields]) (by decide)
      · exact hentry (c := 2) (n := 0xFFFF) (by simp [fatFields]) (by decide)
      · exact hentry (c := 3) (n := 0xFFFF) (by simp [fatFields]) (by decide)
    exact hall c hlow
  · -- nothing has been written there
    have hzero : word 2 fatHead (c * 2) = word 2 (List.replicate 2 0) 0 := by
      rw [word_eq_region]
      unfold fatHead
      rw [region_puts_of_apart hfits]
      · unfold zeros sectorsPerFat sectorSize
        rw [region_replicate (by omega)]
      · intro f hf
        have hstop : ∀ f ∈ fatFields, f.stop ≤ 8 := by decide
        have := hstop f hf
        omega
    rw [hzero]
    unfold linked
    rw [if_neg (by omega), if_neg hlow, if_neg (by omega)]
    rfl

/-- Linking one more cluster -/
theorem FatIs.link {fat : List UInt8} {needed count : Nat} (h : FatIs fat needed count)
    (hroom : 4 + needed ≤ 16384) (hcount : count < needed) :
    ∃ fat', packEntry (firstFileCluster + count)
        (if count + 1 = needed then 0xFFFF else firstFileCluster + count + 1) fat = some fat' ∧
      FatIs fat' needed (count + 1) := by
  have hvalue : (if count + 1 = needed then 0xFFFF else firstFileCluster + count + 1) < 2 ^ 16 := by
    unfold firstFileCluster
    split
    · decide
    · omega
  have hfits : (firstFileCluster + count) * 2 + 2 ≤ fat.length := by
    rw [h.length]
    unfold firstFileCluster
    omega
  refine ⟨_, if_pos ⟨hfits, hvalue⟩, ?_, ?_⟩
  · rw [length_put, h.length]
    unfold Field.stop
    rw [length_leBytes]
    exact hfits
  · intro c hc
    have hstop : (⟨(firstFileCluster + count) * 2,
        leBytes 2 (if count + 1 = needed then 0xFFFF else firstFileCluster + count + 1)⟩ : Field).stop =
          (firstFileCluster + count) * 2 + 2 := by
      unfold Field.stop
      rw [length_leBytes]
    by_cases hsame : c = firstFileCluster + count
    · rw [hsame, word_put_self hfits hvalue, linked_new]
    · rw [word_put_of_apart, h.entry c hc, linked_old hsame]
      · rw [hstop]
        exact hfits
      · rw [hstop]
        show c * 2 + 2 ≤ (firstFileCluster + count) * 2 ∨ (firstFileCluster + count) * 2 + 2 ≤ c * 2
        omega

/-- The loop links one cluster after the other. -/
theorem FatIs.loop {fat : List UInt8} {needed count i : Nat} (h : FatIs fat needed i)
    (hroom : 4 + needed ≤ 16384) (hcount : i + count = needed) :
    ∃ fat', fatLoop needed count i fat = some fat' ∧ FatIs fat' needed needed := by
  induction count generalizing fat i with
  | zero =>
    rw [Nat.add_zero] at hcount
    subst hcount
    exact ⟨fat, rfl, h⟩
  | succ count ih =>
    obtain ⟨fat₁, hpack, h₁⟩ := h.link hroom (by omega)
    obtain ⟨fat', hrest, h'⟩ := ih h₁ (by omega)
    refine ⟨fat', ?_, h'⟩
    rw [fatLoop, hpack]
    exact hrest

/-- The table can be made for as many clusters as it has entries, 4 of which are taken. -/
theorem exists_makeFat {needed : Nat} (hroom : needed ≤ 16380) :
    ∃ fat, makeFat needed = some fat ∧ FatIs fat needed needed :=
  (fatIs_head needed).loop (by omega) (by omega)

/-! ## Directory entries and directories -/

theorem length_padded (n : Nat) (s : List Char) : (padded n s).length = n := by
  unfold padded
  rw [List.length_map, List.length_take, List.length_append, List.length_replicate]
  omega

section DirEntry

variable (name8 ext3 : List Char) (attr : UInt8) (first size : Nat)

/-- Every field lies in the 32 bytes of the entry. -/
theorem dirFields_fit : ∀ f ∈ dirFields name8 ext3 attr first size, f.stop ≤ (zeros 32).length := by
  unfold zeros
  simp [dirFields, Field.stop, length_padded]

theorem dirFields_apart : (dirFields name8 ext3 attr first size).Pairwise Field.Apart := by
  simp [dirFields, Field.Apart, Field.stop, length_padded]

/-- What a reader of a directory sees in an entry -/
structure EntryIs (entry : List UInt8) : Prop where
  length : entry.length = 32
  name : region entry 0 11 = padded 8 name8 ++ padded 3 ext3
  flags : entry.getD 11 0 = attr
  cluster : firstCluster entry = first
  bytes : fileSize entry = size

/-- Every entry can be made whose numbers fit, and reads back. -/
theorem exists_makeDirEntry (hfirst : first < 2 ^ 16) (hsize : size < 2 ^ 32) :
    ∃ entry, makeDirEntry name8 ext3 attr first size = some entry ∧
      EntryIs name8 ext3 attr first size entry := by
  have hfits := dirFields_fit name8 ext3 attr first size
  have hapart := dirFields_apart name8 ext3 attr first size
  refine ⟨_, if_pos ⟨hfirst, hsize⟩, ?_, ?_, ?_, ?_, ?_⟩
  · rw [length_puts hfits]
    exact List.length_replicate
  · have hname := region_puts (f := ⟨0, padded 8 name8⟩) (by simp [dirFields]) hfits hapart
    have hext := region_puts (f := ⟨8, padded 3 ext3⟩) (by simp [dirFields]) hfits hapart
    rw [length_padded] at hname hext
    rw [region_add _ 0 8 3, hname, hext]
  · have hattr := region_puts (f := ⟨11, [attr]⟩) (by simp [dirFields]) hfits hapart
    rw [← Nat.add_zero 11, ← getD_region (n := 1) Nat.zero_lt_one]
    rw [List.length_singleton] at hattr
    rw [hattr]
    rfl
  · exact word_puts (by simp [dirFields]) hfits hapart hfirst
  · exact word_puts (by simp [dirFields]) hfits hapart hsize

end DirEntry

theorem EntryIs.head {name8 ext3 : List Char} {attr : UInt8} {first size : Nat} {entry : List UInt8}
    (h : EntryIs name8 ext3 attr first size entry) :
    entry.getD 0 0 = (padded 8 name8 ++ padded 3 ext3).getD 0 0 := by
  rw [← h.name, getD_region (by omega)]

/-- A name that a reader finds behind `.` and `..` -/
def Findable (name : List UInt8) : Prop :=
  name.getD 0 0 ≠ 0 ∧ name.getD 0 0 ≠ 0xE5 ∧ padded 8 ['.'] ++ padded 3 [] ≠ name ∧
    padded 8 ['.', '.'] ++ padded 3 [] ≠ name

instance (name : List UInt8) : Decidable (Findable name) := inferInstanceAs (Decidable (_ ∧ _))

/-- Three entries at the start of a buffer -/
theorem region_entries {a b c buf : List UInt8} (ha : a.length = 32) (hb : b.length = 32)
    (hc : c.length = 32) (hbuf : 96 ≤ buf.length) :
    (puts [⟨0, a⟩, ⟨32, b⟩, ⟨64, c⟩] buf).length = buf.length ∧
      region (puts [⟨0, a⟩, ⟨32, b⟩, ⟨64, c⟩] buf) 0 32 = a ∧
      region (puts [⟨0, a⟩, ⟨32, b⟩, ⟨64, c⟩] buf) 32 32 = b ∧
      region (puts [⟨0, a⟩, ⟨32, b⟩, ⟨64, c⟩] buf) 64 32 = c := by
  have hfits : ∀ f ∈ ([⟨0, a⟩, ⟨32, b⟩, ⟨64, c⟩] : List Field), f.stop ≤ buf.length := by
    simp only [List.mem_cons, List.not_mem_nil, or_false, forall_eq_or_imp, forall_eq, Field.stop]
    omega
  have hapart : ([⟨0, a⟩, ⟨32, b⟩, ⟨64, c⟩] : List Field).Pairwise Field.Apart := by
    simp [Field.Apart, Field.stop, ha, hb, hc]
  have h₀ := region_puts (f := ⟨0, a⟩) (by simp) hfits hapart
  have h₁ := region_puts (f := ⟨32, b⟩) (by simp) hfits hapart
  have h₂ := region_puts (f := ⟨64, c⟩) (by simp) hfits hapart
  rw [ha] at h₀
  rw [hb] at h₁
  rw [hc] at h₂
  exact ⟨length_puts hfits, h₀, h₁, h₂⟩

/-- A directory cluster with an entry that a reader finds -/
structure DirIs (name : List UInt8) (entry dir : List UInt8) : Prop where
  length : dir.length = 2048
  find : findEntry name dir 64 0 = some entry

theorem exists_makeDirCluster (self parent : Nat) {name8 ext3 : List Char} {attr : UInt8}
    {first size : Nat} {entry : List UInt8} (hself : self < 2 ^ 16) (hparent : parent < 2 ^ 16)
    (h : EntryIs name8 ext3 attr first size entry) (hlabel : attr &&& 0x08 = 0)
    (hfind : Findable (padded 8 name8 ++ padded 3 ext3)) :
    ∃ dir, makeDirCluster self parent entry = some dir ∧
      DirIs (padded 8 name8 ++ padded 3 ext3) entry dir := by
  obtain ⟨dot, hdot, dotIs⟩ := exists_makeDirEntry ['.'] [] 0x10 self 0 hself (by decide)
  obtain ⟨dotdot, hdotdot, dotdotIs⟩ := exists_makeDirEntry ['.', '.'] [] 0x10 parent 0 hparent (by decide)
  have hroom : 96 ≤ (zeros clusterSize).length := by
    unfold zeros
    rw [List.length_replicate]
    decide
  obtain ⟨hlength, h₀, h₁, h₂⟩ := region_entries dotIs.length dotdotIs.length h.length hroom
  obtain ⟨hlive, hkept, hnotDot, hnotDotdot⟩ := hfind
  refine ⟨puts [⟨0, dot⟩, ⟨32, dotdot⟩, ⟨64, entry⟩] (zeros clusterSize), ?_, ?_, ?_⟩
  · rw [makeDirCluster, hdot, hdotdot]
    rfl
  · rw [hlength]
    exact List.length_replicate
  · generalize puts [⟨0, dot⟩, ⟨32, dotdot⟩, ⟨64, entry⟩] (zeros clusterSize) = dir at *
    rw [findEntry_skip (i := 0), findEntry_skip (i := 1), findEntry_hit (i := 2)]
    · exact congrArg some h₂
    · rw [h₂, h.head]
      exact hlive
    · rw [h₂, h.name]
    · rw [h₂, h.head]
      exact hkept
    · rw [h₂, h.flags, hlabel]
    · rw [h₁, dotdotIs.head]
      decide
    · rw [h₁, dotdotIs.name]
      exact Or.inr hnotDotdot
    · rw [h₀, dotIs.head]
      decide
    · rw [h₀, dotIs.name]
      exact Or.inr hnotDot

/-- The names on the path, as directories have them -/
def efiName : List UInt8 := padded 8 ['E', 'F', 'I'] ++ padded 3 []
def bootName : List UInt8 := padded 8 ['B', 'O', 'O', 'T'] ++ padded 3 []
def fileName : List UInt8 := padded 8 ['B', 'O', 'O', 'T', 'X', '6', '4'] ++ padded 3 ['E', 'F', 'I']

/-- The root directory can be made, and a reader finds `EFI` in it. -/
theorem exists_makeRootDir : ∃ dir entry, makeRootDir = some dir ∧ dir.length = 16384 ∧
    EntryIs ['E', 'F', 'I'] [] 0x10 2 0 entry ∧ findEntry efiName dir 512 0 = some entry := by
  obtain ⟨label, hlabel, labelIs⟩ := exists_makeDirEntry
    ['M', 'I', 'N', 'O', 'S', ' ', 'B', 'O', 'O', 'T'] [] 0x08 0 0 (by decide) (by decide)
  obtain ⟨efi, hefi, efiIs⟩ := exists_makeDirEntry ['E', 'F', 'I'] [] 0x10 2 0 (by decide) (by decide)
  have hzeros : (zeros (rootDirSectors * sectorSize)).length = 16384 := List.length_replicate
  have hfits : ∀ f ∈ ([⟨0, label⟩, ⟨32, efi⟩] : List Field),
      f.stop ≤ (zeros (rootDirSectors * sectorSize)).length := by
    rw [hzeros]
    simp [Field.stop, labelIs.length, efiIs.length]
  have hapart : ([⟨0, label⟩, ⟨32, efi⟩] : List Field).Pairwise Field.Apart := by
    simp [Field.Apart, Field.stop, labelIs.length]
  have h₀ := region_puts (f := ⟨0, label⟩) (by simp) hfits hapart
  have h₁ := region_puts (f := ⟨32, efi⟩) (by simp) hfits hapart
  rw [labelIs.length] at h₀
  rw [efiIs.length] at h₁
  refine ⟨puts [⟨0, label⟩, ⟨32, efi⟩] (zeros (rootDirSectors * sectorSize)), efi, ?_,
    (length_puts hfits).trans hzeros, efiIs, ?_⟩
  · rw [makeRootDir, hlabel, hefi]
    rfl
  · generalize puts [⟨0, label⟩, ⟨32, efi⟩] (zeros (rootDirSectors * sectorSize)) = dir at *
    rw [findEntry_skip (i := 0), findEntry_hit (i := 1)]
    · exact congrArg some h₁
    · rw [h₁, efiIs.head]
      decide
    · rw [h₁, efiIs.name]
      rfl
    · rw [h₁, efiIs.head]
      decide
    · rw [h₁, efiIs.flags]
      decide
    · rw [h₀, labelIs.head]
      decide
    · rw [h₀, labelIs.flags]
      exact Or.inl (by decide)

theorem exists_makeEfiDir : ∃ dir entry, makeEfiDir = some dir ∧
    EntryIs ['B', 'O', 'O', 'T'] [] 0x10 3 0 entry ∧ DirIs bootName entry dir := by
  obtain ⟨boot, hboot, bootIs⟩ := exists_makeDirEntry ['B', 'O', 'O', 'T'] [] 0x10 3 0 (by decide) (by decide)
  obtain ⟨dir, hdir, dirIs⟩ := exists_makeDirCluster 2 0 (by decide) (by decide)
    bootIs (by decide) (by decide)
  refine ⟨dir, boot, ?_, bootIs, dirIs⟩
  rw [makeEfiDir, hboot]
  exact hdir

theorem exists_makeBootDir {size : Nat} (hsize : size < 2 ^ 32) : ∃ dir entry, makeBootDir size = some dir ∧
    EntryIs ['B', 'O', 'O', 'T', 'X', '6', '4'] ['E', 'F', 'I'] 0x20 4 size entry ∧
      DirIs fileName entry dir := by
  obtain ⟨file, hfile, fileIs⟩ := exists_makeDirEntry ['B', 'O', 'O', 'T', 'X', '6', '4'] ['E', 'F', 'I']
    0x20 firstFileCluster size (by decide) hsize
  obtain ⟨dir, hdir, dirIs⟩ := exists_makeDirCluster 3 2 (by decide) (by decide)
    fileIs (by decide) (by decide)
  refine ⟨dir, file, ?_, fileIs, dirIs⟩
  rw [makeBootDir, hfile]
  exact hdir

/-! ## The layout of the image -/

theorem length_zeros (n : Nat) : (zeros n).length = n := List.length_replicate

theorem bootFields_fit : ∀ f ∈ bootFields, f.stop ≤ (zeros sectorSize).length := by
  rw [length_zeros]
  decide

theorem length_bootSector : bootSector.length = 512 := by
  rw [bootSector, length_puts bootFields_fit, length_zeros]
  rfl

/-- A number of the boot sector -/
theorem word_bootSector {w offset n : Nat} (hf : (⟨offset, leBytes w n⟩ : Field) ∈ bootFields)
    (hn : n < 256 ^ w) : word w bootSector offset = n :=
  word_puts hf bootFields_fit (by decide) hn

/-- Where the parts of the image are -/
structure Laid (v fat rootDir efiDir bootDir efiData : List UInt8) : Prop where
  length : v.length = 33554432
  boot : region v 0 512 = bootSector
  fat₀ : region v 2048 32768 = fat
  fat₁ : region v 34816 32768 = fat
  root : region v 67584 16384 = rootDir
  efi : region v 83968 2048 = efiDir
  sub : region v 86016 2048 = bootDir
  file : region v 88064 (clustersNeeded efiData.length * 2048) =
    efiData ++ zeros (clustersNeeded efiData.length * 2048 - efiData.length)
  tail : region v 33292288 262144 = zeros 262144

/-- The clusters hold the file. -/
theorem length_le_clusters (n : Nat) : n ≤ clustersNeeded n * 2048 := by
  unfold clustersNeeded clusterSize sectorSize sectorsPerCluster
  omega

theorem length_body (efiData : List UInt8) :
    (efiData ++ zeros (clustersNeeded efiData.length * 2048 - efiData.length)).length =
      clustersNeeded efiData.length * 2048 := by
  have hle := length_le_clusters efiData.length
  unfold zeros
  rw [List.length_append, List.length_replicate]
  omega

theorem laid_image {fat rootDir efiDir bootDir efiData : List UInt8} (hfat : fat.length = 32768)
    (hroot : rootDir.length = 16384) (hefi : efiDir.length = 2048) (hboot : bootDir.length = 2048)
    (hroom : clustersNeeded efiData.length ≤ 16213) :
    Laid (written fat rootDir efiDir bootDir efiData ++
        zeros (imageTotalSectors * sectorSize - (written fat rootDir efiDir bootDir efiData).length))
      fat rootDir efiDir bootDir efiData := by
  have hsector := length_bootSector
  have hbody := length_body efiData
  have hgap := length_zeros 1536
  have hwritten : written fat rootDir efiDir bootDir efiData =
      bootSector ++ (zeros 1536 ++ (fat ++ (fat ++ (rootDir ++ (efiDir ++ (bootDir ++
        (efiData ++ zeros (clustersNeeded efiData.length * 2048 - efiData.length)))))))) := rfl
  have hlength : (written fat rootDir efiDir bootDir efiData).length =
      88064 + clustersNeeded efiData.length * 2048 := by
    rw [hwritten]
    simp only [List.length_append, hsector, hgap, hfat, hroot, hefi, hboot] at hbody ⊢
    omega
  have hpad : imageTotalSectors * sectorSize = 33554432 := rfl
  rw [hlength, hpad]
  have hjoin : ∀ pad, written fat rootDir efiDir bootDir efiData ++ pad =
      bootSector ++ (zeros 1536 ++ (fat ++ (fat ++ (rootDir ++ (efiDir ++ (bootDir ++
        ((efiData ++ zeros (clustersNeeded efiData.length * 2048 - efiData.length)) ++ pad))))))) := by
    intro pad
    simp only [hwritten, List.append_assoc]
  refine
    { length := ?length
      boot := ?_, fat₀ := ?_, fat₁ := ?_, root := ?_, efi := ?_, sub := ?_, file := ?_
      tail := ?tail }
  case length =>
    rw [List.length_append, hlength, length_zeros]
    omega
  case tail =>
    rw [region_append_right (by omega), hlength]
    exact region_replicate (by omega)
  -- skip the parts before the one in question, which then is in front
  all_goals
    rw [hjoin]
    simp only [region_append_right, region_append_front, hsector, hgap, hfat, hroot, hefi, hboot, hbody,
      Nat.reduceLeDiff, Nat.reduceSub]

/-! ## Reading the image -/

section Read

variable {v fat rootDir efiDir bootDir efiData : List UInt8}

theorem Laid.word_boot (h : Laid v fat rootDir efiDir bootDir efiData) {w offset n : Nat}
    (hf : (⟨offset, leBytes w n⟩ : Field) ∈ bootFields) (hn : n < 256 ^ w) (hin : offset + w ≤ 512) :
    word w v offset = n := by
  rw [← word_bootSector hf hn, ← h.boot, word_region hin, Nat.zero_add]

/-- What the boot sector says of the volume -/
structure Geometry (v : Volume) : Prop where
  bytesPerSector : Fat16.bytesPerSector v = 512
  sectorsPerFat : Fat16.sectorsPerFat v = 64
  totalSectors : Fat16.totalSectors v = 65024
  rootEntries : Fat16.rootEntries v = 512
  fatStart : ∀ k, Fat16.fatStart v k = 2048 + k * 32768
  rootStart : Fat16.rootStart v = 67584
  dataSector : Fat16.dataSector v = 164
  clusterCount : Fat16.clusterCount v = 16215
  clusterSize : Fat16.clusterSize v = 2048

theorem Laid.geometry (h : Laid v fat rootDir efiDir bootDir efiData) : Geometry v := by
  have hbytes : Fat16.bytesPerSector v = 512 :=
    h.word_boot (n := sectorSize) (by simp [bootFields]) (by decide) (by decide)
  have hcluster : Fat16.sectorsPerCluster v = 4 :=
    h.word_boot (n := sectorsPerCluster) (by simp [bootFields]) (by decide) (by decide)
  have hreserved : Fat16.reservedSectors v = 4 :=
    h.word_boot (n := reservedSectors) (by simp [bootFields]) (by decide) (by decide)
  have hfats : Fat16.numberOfFats v = 2 :=
    h.word_boot (n := numFats) (by simp [bootFields]) (by decide) (by decide)
  have hentries : Fat16.rootEntries v = 512 :=
    h.word_boot (n := rootEntries) (by simp [bootFields]) (by decide) (by decide)
  have hperFat : Fat16.sectorsPerFat v = 64 :=
    h.word_boot (n := sectorsPerFat) (by simp [bootFields]) (by decide) (by decide)
  have hsmall : word 2 v 19 = 0 := h.word_boot (n := 0) (by simp [bootFields]) (by decide) (by decide)
  have hlarge : word 4 v 32 = 65024 :=
    h.word_boot (n := fatTotalSectors) (by simp [bootFields]) (by decide) (by decide)
  have htotal : Fat16.totalSectors v = 65024 := by
    rw [Fat16.totalSectors, if_pos hsmall, hlarge]
  have hdata : Fat16.dataSector v = 164 := by
    rw [Fat16.dataSector, Fat16.rootSectors, hbytes, hreserved, hfats, hperFat, hentries]
  refine ⟨hbytes, hperFat, htotal, hentries, ?_, ?_, hdata, ?_, ?_⟩
  · intro k
    rw [Fat16.fatStart, hbytes, hreserved, hperFat]
    omega
  · rw [Fat16.rootStart, hbytes, hreserved, hfats, hperFat]
  · rw [Fat16.clusterCount, htotal, hdata, hcluster]
  · rw [Fat16.clusterSize, hbytes, hcluster]

/-- The clusters of the volume -/
theorem Laid.cluster (h : Laid v fat rootDir efiDir bootDir efiData) (c : Nat) :
    Fat16.cluster v c = region v (83968 + (c - 2) * 2048) 2048 := by
  rw [Fat16.cluster, h.geometry.dataSector, h.geometry.bytesPerSector, h.geometry.clusterSize]

/-- Cluster `i` of the file -/
theorem Laid.cluster_file (h : Laid v fat rootDir efiDir bootDir efiData) {i : Nat}
    (hi : i < clustersNeeded efiData.length) : Fat16.cluster v (4 + i) =
      region (efiData ++ zeros (clustersNeeded efiData.length * 2048 - efiData.length)) (i * 2048) 2048 := by
  rw [h.cluster, ← h.file, region_region (by omega)]
  congr 1
  omega

/-- The entries of both copies of the table -/
theorem Laid.fatEntry (h : Laid v fat rootDir efiDir bootDir efiData) {needed c : Nat}
    (hfat : FatIs fat needed needed) (hc : c < 16384) : Fat16.fatEntry v 0 c = linked needed needed c := by
  rw [← hfat.entry c hc, ← h.fat₀, word_region (by omega), Fat16.fatEntry, h.geometry.fatStart]
  congr 1
  omega

/-- A chain of consecutive clusters of the volume -/
theorem Laid.chain (h : Laid v fat rootDir efiDir bootDir efiData) {needed first n : Nat}
    (hfat : FatIs fat needed needed) (hfirst : 2 ≤ first) (hend : first + n < 16217)
    (hlast : linked needed needed (first + n) = 0xFFFF)
    (hnext : ∀ i < n, linked needed needed (first + i) = first + i + 1) :
    Fat16.chain v first = some (List.range' first (n + 1)) := by
  rw [Fat16.chain, h.geometry.clusterCount]
  apply chainOf_consecutive (by omega) hfirst (by omega)
  · rw [h.fatEntry hfat (by omega), hlast]
    decide
  · intro i hi
    rw [h.fatEntry hfat (by omega), hnext i hi]
  · decide

variable {needed : Nat}

theorem Laid.chain_efi (h : Laid v fat rootDir efiDir bootDir efiData) (hfat : FatIs fat needed needed) :
    Fat16.chain v 2 = some [2] :=
  h.chain (n := 0) hfat (by decide) (by decide) rfl (fun _ hi => absurd hi (Nat.not_lt_zero _))

theorem Laid.chain_sub (h : Laid v fat rootDir efiDir bootDir efiData) (hfat : FatIs fat needed needed) :
    Fat16.chain v 3 = some [3] :=
  h.chain (n := 0) hfat (by decide) (by decide) rfl (fun _ hi => absurd hi (Nat.not_lt_zero _))

theorem Laid.chain_file (h : Laid v fat rootDir efiDir bootDir efiData) (hfat : FatIs fat needed needed)
    (hpos : 0 < needed) (hroom : needed ≤ 16213) : Fat16.chain v 4 = some (List.range' 4 needed) := by
  obtain ⟨n, rfl⟩ : ∃ n, needed = n + 1 := ⟨needed - 1, by omega⟩
  apply h.chain hfat (by decide) (by omega)
  · unfold linked
    rw [if_neg (by omega), if_neg (by omega), if_pos (by omega), if_pos (by omega)]
  · intro i hi
    unfold linked
    rw [if_neg (by omega), if_neg (by omega), if_pos (by omega), if_neg (by omega)]

theorem Laid.readChain_efi (h : Laid v fat rootDir efiDir bootDir efiData)
    (hfat : FatIs fat needed needed) : readChain v 2 = some efiDir := by
  rw [readChain, h.chain_efi hfat, Option.map_some, List.flatMap_singleton, h.cluster, h.efi]

theorem Laid.readChain_sub (h : Laid v fat rootDir efiDir bootDir efiData)
    (hfat : FatIs fat needed needed) : readChain v 3 = some bootDir := by
  rw [readChain, h.chain_sub hfat, Option.map_some, List.flatMap_singleton, h.cluster, h.sub]

/-- The chain of the file holds the file, and zeros up to the end of the last cluster. -/
theorem Laid.readChain_file (h : Laid v fat rootDir efiDir bootDir efiData)
    (hfat : FatIs fat (clustersNeeded efiData.length) (clustersNeeded efiData.length))
    (hpos : 0 < clustersNeeded efiData.length) (hroom : clustersNeeded efiData.length ≤ 16213) :
    readChain v 4 = some (efiData ++ zeros (clustersNeeded efiData.length * 2048 - efiData.length)) := by
  rw [readChain, h.chain_file hfat hpos hroom, Option.map_some, List.range'_eq_map_range, List.flatMap_map]
  have hclusters : (List.range (clustersNeeded efiData.length)).flatMap (fun i => Fat16.cluster v (4 + i)) =
      (List.range (clustersNeeded efiData.length)).flatMap fun i =>
        region (efiData ++ zeros (clustersNeeded efiData.length * 2048 - efiData.length)) (i * 2048) 2048 := by
    apply List.flatMap_congr
    intro i hi
    exact h.cluster_file (List.mem_range.mp hi)
  rw [hclusters, flatMap_region, List.take_of_length_le (Nat.le_of_eq (length_body efiData))]

/-- The image and the entries a reader finds on the way -/
structure Holds (v efiData : List UInt8) : Prop where
  efi : ∃ entry, resolve v [efiName] = some entry ∧ EntryIs ['E', 'F', 'I'] [] 0x10 2 0 entry
  sub : ∃ entry, resolve v [efiName, bootName] = some entry ∧
    EntryIs ['B', 'O', 'O', 'T'] [] 0x10 3 0 entry
  file : ∃ entry, resolve v [efiName, bootName, fileName] = some entry ∧
    EntryIs ['B', 'O', 'O', 'T', 'X', '6', '4'] ['E', 'F', 'I'] 0x20 4 efiData.length entry

theorem Laid.holds (h : Laid v fat rootDir efiDir bootDir efiData) (hfat : FatIs fat needed needed)
    {efi boot file : List UInt8} (hrootLength : rootDir.length = 16384)
    (efiIs : EntryIs ['E', 'F', 'I'] [] 0x10 2 0 efi) (hefi : findEntry efiName rootDir 512 0 = some efi)
    (bootIs : EntryIs ['B', 'O', 'O', 'T'] [] 0x10 3 0 boot) (hboot : DirIs bootName boot efiDir)
    (fileIs : EntryIs ['B', 'O', 'O', 'T', 'X', '6', '4'] ['E', 'F', 'I'] 0x20 4 efiData.length file)
    (hfile : DirIs fileName file bootDir) : Holds v efiData := by
  have hfat16 : IsFat16 v := by
    rw [IsFat16, h.geometry.clusterCount]
    decide
  have hroot : Fat16.rootDir v = rootDir := by
    rw [Fat16.rootDir, h.geometry.rootStart, h.geometry.rootEntries, h.root]
  have hresolve : ∀ path, resolve v path = resolveFrom v path rootDir := by
    intro path
    rw [resolve, if_pos hfat16, hroot]
  have hfindEfi : findEntry efiName rootDir (rootDir.length / 32) 0 = some efi := by
    rw [hrootLength]
    exact hefi
  have hfindBoot : findEntry bootName efiDir (efiDir.length / 32) 0 = some boot := by
    rw [hboot.length]
    exact hboot.find
  have hfindFile : findEntry fileName bootDir (bootDir.length / 32) 0 = some file := by
    rw [hfile.length]
    exact hfile.find
  have hefiDir : IsDirectory efi := by
    rw [IsDirectory, efiIs.flags]
    decide
  have hbootDir : IsDirectory boot := by
    rw [IsDirectory, bootIs.flags]
    decide
  have hreadEfi : readChain v (firstCluster efi) = some efiDir := by
    rw [efiIs.cluster, h.readChain_efi hfat]
  have hreadBoot : readChain v (firstCluster boot) = some bootDir := by
    rw [bootIs.cluster, h.readChain_sub hfat]
  refine ⟨⟨efi, ?_, efiIs⟩, ⟨boot, ?_, bootIs⟩, ⟨file, ?_, fileIs⟩⟩
  · rw [hresolve]
    exact hfindEfi
  · rw [hresolve, resolveFrom_step hfindEfi hefiDir hreadEfi]
    exact hfindBoot
  · rw [hresolve, resolveFrom_step hfindEfi hefiDir hreadEfi, resolveFrom_step hfindBoot hbootDir hreadBoot]
    exact hfindFile

end Read

/-- An image that can be made, with its parts -/
theorem exists_createFat16Image {efiData : List UInt8} (hroom : clustersNeeded efiData.length ≤ 16213) :
    ∃ v fat rootDir efiDir bootDir, createFat16Image efiData = some v ∧
      Laid v fat rootDir efiDir bootDir efiData ∧
      FatIs fat (clustersNeeded efiData.length) (clustersNeeded efiData.length) ∧ Holds v efiData := by
  have hsize : efiData.length < 2 ^ 32 := by
    have := length_le_clusters efiData.length
    omega
  obtain ⟨fat, hfat, fatIs⟩ := exists_makeFat (Nat.le_trans hroom (by decide))
  obtain ⟨rootDir, efi, hroot, hrootLength, efiIs, hefi⟩ := exists_makeRootDir
  obtain ⟨efiDir, boot, hefiDir, bootIs, hboot⟩ := exists_makeEfiDir
  obtain ⟨bootDir, file, hbootDir, fileIs, hfile⟩ := exists_makeBootDir hsize
  have hlaid := laid_image fatIs.length hrootLength hboot.length hfile.length hroom
  refine ⟨_, fat, rootDir, efiDir, bootDir, ?_, hlaid, fatIs,
    hlaid.holds fatIs hrootLength efiIs hefi bootIs hboot fileIs hfile⟩
  rw [createFat16Image, hfat, hroot, hefiDir, hbootDir]
  rfl

/-! ## The round trip -/

/-- The sectors of the VFS are empty. -/
theorem Laid.tail_sectors {v fat rootDir efiDir bootDir efiData : List UInt8}
    (h : Laid v fat rootDir efiDir bootDir efiData) {s : Nat} (hlow : Vfs.vfsMetaLba.toNat ≤ s)
    (hhigh : s < Vfs.vfsDiskEndLba) : region v (s * sectorSize) sectorSize = zeros sectorSize := by
  have hlow' : 65024 ≤ s := hlow
  have hhigh' : s < 65536 := hhigh
  have hoffset : s * sectorSize = 33292288 + (s * 512 - 33292288) := by
    unfold sectorSize
    omega
  have hinside : s * 512 - 33292288 + sectorSize ≤ 262144 := by
    unfold sectorSize
    omega
  rw [hoffset, ← region_region hinside, h.tail]
  exact region_replicate (by unfold sectorSize; omega)

/-- What is promised of an image: the file reads back, the two copies of the table agree, the chains of the
three paths end and have all the clusters in use, none of them twice, the volume ends where the VFS begins, and the
sectors of the VFS are empty. -/
structure GivesBack (v : Volume) (efiData : List UInt8) : Prop where
  file : readFile v [efiName, bootName, fileName] = some efiData
  copies : fatCopy v 0 = fatCopy v 1
  chains : ∃ efi boot file, chainOfPath v [efiName] = some efi ∧ chainOfPath v [efiName, bootName] = some boot ∧
    chainOfPath v [efiName, bootName, fileName] = some file ∧ (efi ++ (boot ++ file)).Nodup ∧
    ∀ c, 2 ≤ c → c < clusterCount v + 2 → (fatEntry v 0 c ≠ 0 ↔ c ∈ efi ++ (boot ++ file))
  length : v.length = Vfs.vfsDiskEndLba * sectorSize
  volume : totalSectors v = Vfs.vfsMetaLba.toNat ∧ bytesPerSector v = sectorSize
  tail : ∀ s, Vfs.vfsMetaLba.toNat ≤ s → s < Vfs.vfsDiskEndLba → region v (s * sectorSize) sectorSize = zeros sectorSize

/-- **The image gives the EFI file back**, whatever its size, up to the clusters there are. -/
theorem createFat16Image_gives_back (efiData : List UInt8) (hne : efiData ≠ [])
    (hroom : clustersNeeded efiData.length ≤ 16213) :
    ∃ v, createFat16Image efiData = some v ∧ GivesBack v efiData := by
  obtain ⟨v, fat, rootDir, efiDir, bootDir, hv, h, fatIs, holds⟩ := exists_createFat16Image hroom
  have hpos : 0 < clustersNeeded efiData.length := by
    have hlength := List.length_pos_of_ne_nil hne
    have := length_le_clusters efiData.length
    omega
  obtain ⟨⟨efi, hefi, efiIs⟩, ⟨boot, hboot, bootIs⟩, ⟨file, hfile, fileIs⟩⟩ := holds
  refine ⟨v, hv, ?_, ?_, ⟨[2], [3], List.range' 4 (clustersNeeded efiData.length), ?_, ?_, ?_, ?_, ?_⟩, ?_, ?_, ?_⟩
  · have hplain : ¬ IsDirectory file := by
      rw [IsDirectory, fileIs.flags]
      decide
    rw [readFile, hfile, Option.bind_some, if_neg hplain, fileIs.cluster, h.readChain_file fatIs hpos hroom,
      fileIs.bytes, Option.map_some, List.take_left]
  · rw [fatCopy, fatCopy, h.geometry.fatStart, h.geometry.fatStart, h.geometry.sectorsPerFat,
      h.geometry.bytesPerSector]
    exact h.fat₀.trans h.fat₁.symm
  · rw [chainOfPath, hefi, Option.bind_some, efiIs.cluster, h.chain_efi fatIs]
  · rw [chainOfPath, hboot, Option.bind_some, bootIs.cluster, h.chain_sub fatIs]
  · rw [chainOfPath, hfile, Option.bind_some, fileIs.cluster, h.chain_file fatIs hpos hroom]
  · simp [List.nodup_range']
  · intro c hlow hhigh
    rw [h.geometry.clusterCount] at hhigh
    rw [h.fatEntry fatIs (by omega), linked]
    simp only [List.cons_append, List.nil_append, List.mem_cons, List.mem_range'_1]
    split_ifs <;> omega
  · exact h.length
  · exact ⟨h.geometry.totalSectors, h.geometry.bytesPerSector⟩
  · exact fun _ => h.tail_sectors

/-- A file of three bytes -/
theorem createFat16Image_gives_back_small :
    ∃ v, createFat16Image [0x4D, 0x5A, 0x90] = some v ∧ GivesBack v [0x4D, 0x5A, 0x90] :=
  createFat16Image_gives_back _ (by decide) (by decide)

end MinOS.Mkdisk
