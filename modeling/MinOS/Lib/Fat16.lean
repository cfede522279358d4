/-
# Fat16 — reading a FAT16 volume from its own boot sector.

A volume is a byte string. Everything a reader needs to find its way is in the BIOS parameter block of the
first sector: the sizes of sectors and clusters, and how many sectors the reserved area, the copies of the
allocation table and the root directory take. Files are chains of clusters linked in the table; directories
are arrays of 32-byte entries. The reader here takes every number from the volume and stops (`none`) at
anything that is not in order.
-/
import MinOS.Lib.Buffer

namespace Fat16

open Buffer

/-- The volume -/
abbrev Volume : Type := List UInt8

variable (v : Volume)

/-! ## The BIOS parameter block -/

def bytesPerSector : Nat := word 2 v 11
def sectorsPerCluster : Nat := word 1 v 13
def reservedSectors : Nat := word 2 v 14
def numberOfFats : Nat := word 1 v 16
def rootEntries : Nat := word 2 v 17
def sectorsPerFat : Nat := word 2 v 22

/-- The 16-bit field, or the 32-bit field if that is 0 -/
def totalSectors : Nat := if word 2 v 19 = 0 then word 4 v 32 else word 2 v 19

/-- Where copy `k` of the allocation table starts, in bytes -/
def fatStart (k : Nat) : Nat := (reservedSectors v + k * sectorsPerFat v) * bytesPerSector v

/-- Where the root directory starts -/
def rootStart : Nat := (reservedSectors v + numberOfFats v * sectorsPerFat v) * bytesPerSector v

/-- The sectors of the root directory, rounded up -/
def rootSectors : Nat := (rootEntries v * 32 + (bytesPerSector v - 1)) / bytesPerSector v

/-- The first sector of the data area -/
def dataSector : Nat := reservedSectors v + numberOfFats v * sectorsPerFat v + rootSectors v

/-- How many clusters the data area has -/
def clusterCount : Nat := (totalSectors v - dataSector v) / sectorsPerCluster v

/-- The number of clusters is what makes a volume a FAT16 volume. -/
def IsFat16 : Prop := 4085 ≤ clusterCount v ∧ clusterCount v < 65525

instance : Decidable (IsFat16 v) := inferInstanceAs (Decidable (_ ∧ _))

/-- Bytes of a cluster -/
def clusterSize : Nat := sectorsPerCluster v * bytesPerSector v

/-- The contents of a cluster; the first one has number 2 -/
def cluster (c : Nat) : List UInt8 :=
  region v (dataSector v * bytesPerSector v + (c - 2) * clusterSize v) (clusterSize v)

/-! ## Chains -/

/-- The entry of a cluster in copy `k` of the table -/
def fatEntry (k c : Nat) : Nat := word 2 v (fatStart v k + 2 * c)

/-- The bytes of copy `k` of the table -/
def fatCopy (k : Nat) : List UInt8 := region v (fatStart v k) (sectorsPerFat v * bytesPerSector v)

/-- The clusters from `c` on that `next` links, up to the first whose entry is an end mark; none if the
chain leaves the clusters below `limit` or is not at its end after `fuel` of them -/
def chainOf (next : Nat → Nat) (limit : Nat) : (fuel c : Nat) → Option (List Nat)
  | 0, _ => none
  | fuel + 1, c =>
    if c < 2 ∨ limit ≤ c then none
    else if 0xFFF8 ≤ next c then some [c]
    else (chainOf next limit fuel (next c)).map (c :: ·)

/-- The chain from `c` on in the first copy of the table. A chain without repetition has at most as many
clusters as there are. -/
def chain (c : Nat) : Option (List Nat) :=
  chainOf (fatEntry v 0) (clusterCount v + 2) (clusterCount v) c

/-- The contents of a chain -/
def readChain (c : Nat) : Option (List UInt8) := (chain v c).map fun cs => cs.flatMap (cluster v)

/-- Consecutive clusters, the last one marked, are a chain. -/
theorem chainOf_consecutive {next : Nat → Nat} {limit fuel c n : Nat} (hn : n < fuel) (hc : 2 ≤ c)
    (hlimit : c + n < limit) (hlast : 0xFFF8 ≤ next (c + n))
    (hnext : ∀ i < n, next (c + i) = c + i + 1) (hsmall : limit ≤ 0xFFF8) :
    chainOf next limit fuel c = some (List.range' c (n + 1)) := by
  induction n generalizing c fuel with
  | zero =>
    obtain ⟨fuel, rfl⟩ : ∃ f, fuel = f + 1 := ⟨fuel - 1, by omega⟩
    have hend : 0xFFF8 ≤ next c := hlast
    rw [chainOf, if_neg (by omega), if_pos hend]
    rfl
  | succ n ih =>
    obtain ⟨fuel, rfl⟩ : ∃ f, fuel = f + 1 := ⟨fuel - 1, by omega⟩
    have hfirst : next c = c + 1 := hnext 0 (by omega)
    have hmore : ¬ 0xFFF8 ≤ next c := by omega
    have hrest : chainOf next limit fuel (c + 1) = some (List.range' (c + 1) (n + 1)) := by
      apply ih (by omega) (by omega) (by omega)
      · rw [Nat.add_right_comm]
        exact hlast
      · intro i hi
        have := hnext (i + 1) (by omega)
        rw [Nat.add_right_comm, Nat.add_assoc c i 1]
        exact this
    rw [chainOf, if_neg (by omega), if_neg hmore, hfirst, hrest]
    rfl

/-! ## Directories -/

/-- Search a directory for a name of eleven bytes, from entry `i` on: an entry that starts with 0 ends it,
deleted entries and volume labels do not count. -/
def findEntry (name dir : List UInt8) : (count i : Nat) → Option (List UInt8)
  | 0, _ => none
  | count + 1, i =>
    let entry := region dir (32 * i) 32
    if entry.getD 0 0 = 0 then none
    else if entry.getD 0 0 = 0xE5 ∨ entry.getD 11 0 &&& 0x08 ≠ 0 ∨ region entry 0 11 ≠ name then
      findEntry name dir count (i + 1)
    else some entry

section Find

variable {name dir : List UInt8} {count i : Nat}

/-- An entry of another name, or a label, is passed over. -/
theorem findEntry_skip (hlive : (region dir (32 * i) 32).getD 0 0 ≠ 0)
    (hother : (region dir (32 * i) 32).getD 11 0 &&& 0x08 ≠ 0 ∨
      region (region dir (32 * i) 32) 0 11 ≠ name) :
    findEntry name dir (count + 1) i = findEntry name dir count (i + 1) := by
  rw [findEntry, if_neg hlive, if_pos (Or.inr hother)]

/-- A live entry of the name is found. -/
theorem findEntry_hit (hlive : (region dir (32 * i) 32).getD 0 0 ≠ 0)
    (hname : region (region dir (32 * i) 32) 0 11 = name)
    (hkept : (region dir (32 * i) 32).getD 0 0 ≠ 0xE5)
    (hlabel : (region dir (32 * i) 32).getD 11 0 &&& 0x08 = 0) :
    findEntry name dir (count + 1) i = some (region dir (32 * i) 32) := by
  rw [findEntry, if_neg hlive, if_neg]
  rintro (h | h | h)
  · exact hkept h
  · exact h hlabel
  · exact h hname

end Find

/-- The entry is a directory. -/
def IsDirectory (entry : List UInt8) : Prop := entry.getD 11 0 &&& 0x10 ≠ 0

instance (entry : List UInt8) : Decidable (IsDirectory entry) := inferInstanceAs (Decidable (_ ≠ _))

/-- The first cluster of an entry -/
def firstCluster (entry : List UInt8) : Nat := word 2 entry 26

/-- The size of an entry, in bytes -/
def fileSize (entry : List UInt8) : Nat := word 4 entry 28

/-- Follow a path from the directory `dir` -/
def resolveFrom : (path : List (List UInt8)) → (dir : List UInt8) → Option (List UInt8)
  | [], _ => none
  | [name], dir => findEntry name dir (dir.length / 32) 0
  | name :: path, dir =>
    match findEntry name dir (dir.length / 32) 0 with
    | none => none
    | some entry =>
      if IsDirectory entry then
        match readChain v (firstCluster entry) with
        | none => none
        | some next => resolveFrom path next
      else none

variable {v} in
/-- A directory on the way -/
theorem resolveFrom_step {name next : List UInt8} {path : List (List UInt8)} {dir entry inner : List UInt8}
    (hfind : findEntry name dir (dir.length / 32) 0 = some entry) (hdir : IsDirectory entry)
    (hread : readChain v (firstCluster entry) = some inner) :
    resolveFrom v (name :: next :: path) dir = resolveFrom v (next :: path) inner := by
  rw [resolveFrom, hfind]
  · simp only [if_pos hdir, hread]
  · exact List.cons_ne_nil next path

/-- The root directory -/
def rootDir : List UInt8 := region v (rootStart v) (rootEntries v * 32)

/-- The entry of a path, on a FAT16 volume -/
def resolve (path : List (List UInt8)) : Option (List UInt8) :=
  if IsFat16 v then resolveFrom v path (rootDir v) else none

/-- The chain of a path -/
def chainOfPath (path : List (List UInt8)) : Option (List Nat) :=
  (resolve v path).bind fun entry => chain v (firstCluster entry)

/-- The file at a path -/
def readFile (path : List (List UInt8)) : Option (List UInt8) :=
  (resolve v path).bind fun entry =>
    if IsDirectory entry then none
    else (readChain v (firstCluster entry)).map fun contents => contents.take (fileSize entry)

end Fat16
