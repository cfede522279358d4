/-
# MinOS.Vfs.Model — `kernel/vfs.c`, function by function.

The record table, the content cache, the generation counter and the mount flag are one `State`,
together with the drive. Each function of the source is a definition under its own name. A function
that can index outside an array returns in `Except Fault`; an in-range index is a `Slot`, so that it
cannot be anything else. Return codes are the source's `0` and `-1`.

Pointers are never NULL here: strings, buffers and out-parameters are values, as every caller of the
source passes the address of an object. Serial output is left out.
-/
import Mathlib.Data.Fintype.Pi
import Mathlib.Data.List.FinRange
import MinOS.Ata
import MinOS.Lib.Bytes
import MinOS.Vfs.Path

namespace MinOS.Vfs

open MinOS.Ata
open Bytes (leByte leNat chars copyStr)

/-! ## Layout -/

/-- `VFS_META_LBA`, the first of the 8 metadata sectors: `VFS_DISK_END_LBA - VFS_RESERVED_SECTORS` -/
def vfsMetaLba : UInt32 := 65536 - 512
/-- `VFS_DATA_LBA` -/
def vfsDataLba : UInt32 := vfsMetaLba + 8
/-- `VFS_DISK_END_LBA` -/
def vfsDiskEndLba : Nat := 65536
/-- `VFS_CONTENT_MAX` -/
def vfsContentMax : Nat := 4096
/-- `VFS_MAGIC` -/
def vfsMagic : Nat := 0x534F4E4D

/-- `enum vfs_type` -/
inductive VfsType
  | directory
  | file
  deriving DecidableEq, Repr

/-- The value a type has in a record. -/
def VfsType.code : VfsType → UInt8
  | .directory => 1
  | .file => 2

/-- An index into `records[]` and `contents[]` -/
abbrev Slot := Fin 64

/-- Slot literals: `0` is the root. -/
instance slotNeZero : NeZero 64 := ⟨by decide⟩

/-- `for (i = 1; i < VFS_FILE_MAX; ++i)` -/
def slots : List Slot := (List.finRange 64).tail

/-- `struct vfs_record` -/
structure VfsRecord where
  name : Fin 32 → UInt8
  parent : Int16
  type : UInt8
  used : UInt8
  size : UInt32
  dataLba : UInt32
  deriving DecidableEq

/-- `records[]` -/
abbrev Table := Slot → VfsRecord

/-- Eight sectors' worth of bytes: a row of `contents[]`, or the metadata area. -/
abbrev Block := Fin 4096 → UInt8

/-- The byte at an offset computed at run time. -/
def byteAt (b : Block) (k : Nat) : UInt8 := if h : k < 4096 then b ⟨k, h⟩ else 0

/-- The statics of `vfs.c`, and the drive. -/
structure State where
  records : Table
  contents : Slot → Block
  generation : UInt32
  diskBacked : Bool
  drive : Drive
  /-- History variable: whether the last `persist()` returned 0. -/
  flushed : Bool

/-- A record of zero bytes -/
def VfsRecord.zero : VfsRecord :=
  { name := fun _ => 0, parent := 0, type := 0, used := 0, size := 0, dataLba := 0 }

/-! ## Eight sectors at a time -/

theorem mod_lt_512 (k : Fin 4096) : k.val % 512 < 512 := Nat.mod_lt _ (by omega)

theorem div_lt_8 (k : Fin 4096) : k.val / 512 < 8 := by omega

/-- `buf + i * 512` -/
def sectorOf (b : Block) (i : Fin 8) : Sector := fun j => b ⟨512 * i + j, by omega⟩

/-- Overwrite the `i`-th 512 bytes. -/
def setSector (b : Block) (i : Fin 8) (s : Sector) : Block := fun k =>
  if k.val / 512 = i then s ⟨k.val % 512, mod_lt_512 k⟩ else b k

/-- `base + i` as a sector address -/
def lbaAdd (base : UInt32) (i : Fin 8) : UInt32 := base + UInt32.ofNat i

/-- `for (i …) if (ata_write28(base + i, buf + i * 512U) != 0) return -1;` -/
def writeSectors (base : UInt32) (b : Block) : List (Fin 8) → Drive → Bool × Drive
  | [], d => (true, d)
  | i :: is, d =>
    match ataWrite28 d (lbaAdd base i) (sectorOf b i) with
    | (true, d') => writeSectors base b is d'
    | (false, d') => (false, d')

/-- `for (i …)` reading `base + i` into the buffer, up to the first failure -/
def readSectors (base : UInt32) : List (Fin 8) → Block → Drive → Bool × Block × Drive
  | [], b, d => (true, b, d)
  | i :: is, b, d =>
    match ataRead28 d (lbaAdd base i) with
    | (some s, d') => readSectors base is (setSector b i s) d'
    | (none, d') => (false, b, d')

/-! ## The packed record -/

/-- `((uint8_t *)&records[i])[j]`: the 44 bytes of a record, fields little-endian in order -/
def recordByte (r : VfsRecord) (j : Nat) : UInt8 :=
  if h : j < 32 then r.name ⟨j, h⟩
  else if j < 34 then leByte r.parent.toUInt16.toNat (j - 32)
  else if j = 34 then r.type
  else if j = 35 then r.used
  else if j < 40 then leByte r.size.toNat (j - 36)
  else leByte r.dataLba.toNat (j - 40)

/-- A record whose 44 bytes are `raw 0`, …, `raw 43` -/
def recordOfBytes (raw : Nat → UInt8) : VfsRecord where
  name j := raw j
  parent := ⟨UInt16.ofNat (leNat 2 fun k => raw (32 + k))⟩
  type := raw 34
  used := raw 35
  size := UInt32.ofNat (leNat 4 fun k => raw (36 + k))
  dataLba := UInt32.ofNat (leNat 4 fun k => raw (40 + k))

/-- The buffer `persist` fills: magic, generation, then record `i` at offset `8 + 44 * i`, zeros -/
def encodeMeta (generation : UInt32) (t : Table) : Block := fun k =>
  if k.val < 4 then leByte vfsMagic k
  else if k.val < 8 then leByte generation.toNat (k - 4)
  else if h : (k.val - 8) / 44 < 64 then recordByte (t ⟨(k - 8) / 44, h⟩) ((k - 8) % 44)
  else 0

/-- The record table in a metadata buffer, as `vfs_init` copies it out -/
def decodeTable (all : Block) : Table := fun i => recordOfBytes fun j => byteAt all (8 + 44 * i + j)

/-- `*(uint32_t *)(all + 4)` -/
def decodeGeneration (all : Block) : UInt32 := UInt32.ofNat (leNat 4 fun k => byteAt all (4 + k))

/-- `*(uint32_t *)sector == VFS_MAGIC` -/
def hasMagic (s : Sector) : Bool :=
  leNat 4 (fun k => if h : k < 512 then s ⟨k, h⟩ else 0) == vfsMagic

/-! ## Lookup -/

/-- `for (j = 0; name[j] && l < VFS_PATH_MAX; ++j) buf[l++] = name[j];` over the rest of the name -/
def appendName (buf : List UInt8) : List UInt8 → Except Fault (List UInt8)
  | [] => .error .nameIndex
  | c :: cs =>
    if c = 0 then .ok buf
    else if buf.length < vfsPathMax then appendName (buf ++ [c]) cs
    else .ok buf

/-- Append a record's name to a path buffer, with the `/` and the final NUL -/
def joinName (buf : List UInt8) (r : VfsRecord) : Except Fault (List UInt8) := do
  let out ← appendName (if 1 < buf.length then buf ++ [slash] else buf) (List.ofFn r.name)
  if out.length ≤ vfsPathMax then .ok out else .error .pathIndex

/-- An `int16_t` converted to `uint32_t` -/
def toU32 (p : Int16) : Nat := (p.toInt % 2 ^ 32).toNat

/-- `while (at && depth < 16) { stack[depth++] = at; at = records[at].parent; }`, with `fuel` the room
left on the stack -/
def ancestors (t : Table) : (fuel : Nat) → (node : Nat) → Except Fault (List Slot)
  | 0, _ => .ok []
  | fuel + 1, node =>
    if node = 0 then .ok []
    else if h : node < 64 then do
      let rest ← ancestors t fuel (toU32 (t ⟨node, h⟩).parent)
      .ok (⟨node, h⟩ :: rest)
    else .error .recordIndex

/-- The path `find` rebuilds for the parent `p ≥ 0` of a record -/
def parentPath (t : Table) (p : Nat) : Except Fault (List UInt8) :=
  if p = 0 then .ok [slash]
  else do
    let stack ← ancestors t 16 p
    stack.reverse.foldlM (fun buf k => joinName buf (t k)) [slash]

/-- The full path `find` rebuilds for record `i`, whose parent is not negative -/
def candidate (t : Table) (i : Slot) : Except Fault (List UInt8) := do
  let parent ← parentPath t (t i).parent.toInt.toNat
  joinName (parent.take vfsPathMax) (t i)

/-- The loop of `find` over the records that are left -/
def findLoop (t : Table) (normalized : List UInt8) : List Slot → Except Fault (Option Slot)
  | [] => .ok none
  | i :: is =>
    if (t i).used = 0 then findLoop t normalized is
    else if (t i).parent.toInt < 0 then findLoop t normalized is
    else do
      let c ← candidate t i
      if c = normalized then .ok (some i) else findLoop t normalized is

/-- `find`; `none` is -1 -/
def find (t : Table) (path : List UInt8) : Except Fault (Option Slot) := do
  match ← vfsNormalizeRoot path with
  | none => .ok none
  | some normalized => if normalized = [slash] then .ok (some 0) else findLoop t normalized slots

/-- `for (i = 1; normalized[i]; ++i) if (normalized[i] == '/') split = i;` from index `i` on -/
def lastSlash : (rest : List UInt8) → (i split : Nat) → Nat
  | [], _, split => split
  | c :: cs, i, split => lastSlash cs (i + 1) (if c = slash then i else split)

/-- `parent_and_name`; `none` is -1 -/
def parentAndName (t : Table) (path : List UInt8) : Except Fault (Option (Slot × List UInt8)) := do
  match ← vfsNormalizeRoot path with
  | none => .ok none
  | some normalized =>
    if normalized = [slash] then .ok none
    else
      let split := lastSlash normalized.tail 1 0
      let name := (normalized.drop (if split = 0 then 1 else split + 1)).take vfsNameMax
      match ← find t (if split = 0 then [slash] else normalized.take split) with
      | none => .ok none
      | some parent =>
        if (t parent).type = VfsType.directory.code then .ok (some (parent, name)) else .ok none

/-! ## Mounting and flushing -/

/-- The return code of a flag -/
def rc (ok : Bool) : Int := if ok then 0 else -1

/-- `persist` -/
def persist (s : State) : Int × State :=
  if s.diskBacked then
    let generation := s.generation + 1
    let (ok, drive) :=
      writeSectors vfsMetaLba (encodeMeta generation s.records) (List.finRange 8) s.drive
    (rc ok, { s with generation, drive, flushed := ok })
  else (0, { s with flushed := true })

/-- The table `vfs_init` starts from: one used record, the root -/
def initTable : Table := Function.update (fun _ => VfsRecord.zero) 0
  { VfsRecord.zero with
    used := 1, type := VfsType.directory.code, parent := -1
    name := copyStr VfsRecord.zero.name [slash] }

/-- The probe and the load of `vfs_init`: the stored generation and table, if all reads succeed and
the first sector has the magic -/
def loadTable (d : Drive) : Option (UInt32 × Table) × Drive :=
  match ataRead28 d vfsMetaLba with
  | (none, d) => (none, d)
  | (some sector, d) =>
    if hasMagic sector then
      match readSectors vfsMetaLba (List.finRange 8) (fun _ => 0) d with
      | (true, all, d) => (some (decodeGeneration all, decodeTable all), d)
      | (false, _, d) => (none, d)
    else (none, d)

/-- `vfs_init` -/
def vfsInit (s : State) : Int × State :=
  let diskBacked := ataPrimaryMasterPresent s.drive
  let (loaded, drive) := if diskBacked then loadTable s.drive else (none, s.drive)
  match loaded with
  | some (generation, records) => persist { s with records, generation, diskBacked, drive }
  | none => persist { s with records := initTable, generation := 0, diskBacked, drive }

/-- Memory after a reset, before `vfs_init` -/
def State.boot (d : Drive) : State where
  records := fun _ => .zero
  contents := fun _ _ => 0
  generation := 0
  diskBacked := false
  drive := d
  flushed := false

/-- A boot: all memory cleared, then `vfs_init` -/
def mount (d : Drive) : Int × State := vfsInit (State.boot d)

/-! ## Operations -/

/-- `struct vfs_stat` -/
structure VfsStat where
  type : UInt8
  size : UInt32
  deriving DecidableEq, Repr

/-- `struct vfs_dirent` -/
structure VfsDirent where
  name : List UInt8
  type : UInt8
  size : UInt32
  deriving DecidableEq, Repr

/-- `vfs_stat_path`; `none` is -1 -/
def vfsStatPath (s : State) (path : List UInt8) : Except Fault (Option VfsStat) := do
  match ← find s.records path with
  | none => .ok none
  | some n => .ok (some ⟨(s.records n).type, (s.records n).size⟩)

/-- `vfs_is_directory` -/
def vfsIsDirectory (s : State) (path : List UInt8) : Except Fault Bool := do
  match ← vfsStatPath s path with
  | none => .ok false
  | some st => .ok (decide (st.type = VfsType.directory.code))

/-- The lowest free slot of `1..63` -/
def freeSlot (t : Table) : Option Slot := slots.find? fun i => (t i).used = 0

/-- The record `create` fills in -/
def newRecord (type : VfsType) (parent slot : Slot) (name : List UInt8) : VfsRecord where
  name := copyStr VfsRecord.zero.name name
  parent := Int16.ofNat parent
  type := type.code
  used := 1
  size := 0
  dataLba := vfsDataLba + UInt32.ofNat slot * 8

/-- Store a record. -/
def State.setRecord (s : State) (n : Slot) (r : VfsRecord) : State :=
  { s with records := Function.update s.records n r }

/-- `create` -/
def create (s : State) (path : List UInt8) (type : VfsType) : Except Fault (Int × State) := do
  match ← find s.records path with
  | some _ => .ok (-1, s)
  | none =>
    match ← parentAndName s.records path with
    | none => .ok (-1, s)
    | some (parent, name) =>
      if name = [] then .ok (-1, s)
      else
        match freeSlot s.records with
        | none => .ok (-1, s)
        | some slot => .ok (persist (s.setRecord slot (newRecord type parent slot name)))

/-- `vfs_mkdir` -/
def vfsMkdir (s : State) (path : List UInt8) : Except Fault (Int × State) := create s path .directory

/-- `vfs_touch` -/
def vfsTouch (s : State) (path : List UInt8) : Except Fault (Int × State) := do
  match ← find s.records path with
  | some _ => .ok (0, s)
  | none => create s path .file

/-- `records[i].used && records[i].parent == n` -/
def isChildOf (t : Table) (n i : Slot) : Bool := (t i).used ≠ 0 ∧ (t i).parent.toInt = n

/-- `records[n].used = 0; return persist();` -/
def clearUsed (s : State) (n : Slot) : Int × State :=
  persist (s.setRecord n { s.records n with used := 0 })

/-- `vfs_rmdir` -/
def vfsRmdir (s : State) (path : List UInt8) : Except Fault (Int × State) := do
  match ← find s.records path with
  | none => .ok (-1, s)
  | some n =>
    if n = 0 ∨ (s.records n).type ≠ VfsType.directory.code then .ok (-1, s)
    else if slots.any (isChildOf s.records n) then .ok (-1, s)
    else .ok (clearUsed s n)

/-- `vfs_remove` -/
def vfsRemove (s : State) (path : List UInt8) : Except Fault (Int × State) := do
  match ← find s.records path with
  | none => .ok (-1, s)
  | some n =>
    if n = 0 ∨ (s.records n).type ≠ VfsType.file.code then .ok (-1, s)
    else .ok (clearUsed s n)

/-- Store a row of `contents[]`. -/
def State.setContent (s : State) (n : Slot) (b : Block) : State :=
  { s with contents := Function.update s.contents n b }

/-- The disk half of `vfs_read`: refresh `contents[n]` from the file's 8 sectors, up to the first
failed read -/
def refresh (s : State) (n : Slot) : Bool × State :=
  if s.diskBacked then
    let (ok, b, drive) :=
      readSectors (s.records n).dataLba (List.finRange 8) (s.contents n) s.drive
    (ok, { s.setContent n b with drive })
  else (true, s)

/-- `vfs_read`; `none` is -1, otherwise the bytes stored through `b`, `*size` of them -/
def vfsRead (s : State) (path : List UInt8) (cap : UInt32) :
    Except Fault (Option (List UInt8) × State) := do
  match ← find s.records path with
  | none => .ok (none, s)
  | some n =>
    if (s.records n).type ≠ VfsType.file.code then .ok (none, s)
    else
      match refresh s n with
      | (false, s) => .ok (none, s)
      | (true, s) =>
        let want := min (s.records n).size.toNat cap.toNat
        if want ≤ vfsContentMax then .ok (some ((List.ofFn (s.contents n)).take want), s)
        else .error .contentIndex

/-- `for (i = 0; i < size; ++i) contents[n][pos + i] = d[i];` -/
def blit (b : Block) (pos : Nat) (d : List UInt8) : Block := fun k =>
  if pos ≤ k.val ∧ k.val < pos + d.length then d.getD (k - pos) 0 else b k

/-- `vfs_write` after the checks: `d` goes to `contents[n]` from `pos` on, cut at `VFS_CONTENT_MAX`;
then the 8 data sectors, then the metadata -/
def writeAt (s : State) (n : Slot) (pos : Nat) (d : List UInt8) : Int × State :=
  let d := d.take (vfsContentMax - pos)
  let s := s.setContent n (blit (s.contents n) pos d)
  let s := s.setRecord n { s.records n with size := UInt32.ofNat (pos + d.length) }
  if s.diskBacked then
    match writeSectors (s.records n).dataLba (s.contents n) (List.finRange 8) s.drive with
    | (true, drive) => persist { s with drive }
    | (false, drive) => (-1, { s with drive })
  else persist s

/-- `vfs_write`; the length of `d` is the argument `size` -/
def vfsWrite (s : State) (path d : List UInt8) (append : Bool) : Except Fault (Int × State) := do
  match ← find s.records path with
  | none => .ok (-1, s)
  | some n =>
    if (s.records n).type ≠ VfsType.file.code then .ok (-1, s)
    else
      let pos := if append then (s.records n).size.toNat else 0
      if vfsContentMax < pos then .ok (-1, s) else .ok (writeAt s n pos d)

/-- `vfs_copy` -/
def vfsCopy (s : State) (src dst : List UInt8) : Except Fault (Int × State) := do
  match ← vfsRead s src 4096 with
  | (none, s) => .ok (-1, s)
  | (some b, s) =>
    let (rc, s) ← vfsTouch s dst
    if rc ≠ 0 then .ok (-1, s)
    else
      let (rc, s) ← vfsWrite s dst b false
      if rc ≠ 0 then .ok (-1, s) else .ok (0, s)

/-- `vfs_move` -/
def vfsMove (s : State) (src dst : List UInt8) : Except Fault (Int × State) := do
  let (rc, s) ← vfsCopy s src dst
  if rc ≠ 0 then .ok (-1, s) else vfsRemove s src

/-- The entry `vfs_list` makes of a record -/
def direntOf (r : VfsRecord) : VfsDirent := ⟨(chars r.name).take vfsNameMax, r.type, r.size⟩

/-- The loop of `vfs_list` over the records that are left, with the entries found so far -/
def listLoop (t : Table) (n : Slot) (max : Nat) : List Slot → List VfsDirent → List VfsDirent
  | [], out => out
  | i :: is, out =>
    if out.length < max then
      listLoop t n max is (if isChildOf t n i then out ++ [direntOf (t i)] else out)
    else out

/-- `vfs_list`; `none` is -1 -/
def vfsList (s : State) (path : List UInt8) (max : UInt32) :
    Except Fault (Option (List VfsDirent)) := do
  match ← find s.records path with
  | none => .ok none
  | some n =>
    if (s.records n).type ≠ VfsType.directory.code then .ok none
    else .ok (some (listLoop s.records n max.toNat slots []))

/-! ## Calls -/

/-- A call of the interface, on paths of at most `VFS_PATH_MAX` characters -/
inductive Op
  | mkdir (p : PathArg)
  | rmdir (p : PathArg)
  | touch (p : PathArg)
  | remove (p : PathArg)
  | read (p : PathArg) (cap : UInt32)
  | write (p : PathArg) (d : List UInt8) (append : Bool)
  | copy (src dst : PathArg)
  | move (src dst : PathArg)
  | list (p : PathArg) (max : UInt32)
  | stat (p : PathArg)

/-- A return code and what was stored through the out-parameters -/
inductive Reply
  | code (rc : Int)
  | data (bytes : Option (List UInt8))
  | entries (es : Option (List VfsDirent))
  | stat (st : Option VfsStat)
  deriving DecidableEq, Repr

/-- The return code of a reply -/
def Reply.rc : Reply → Int
  | .code rc => rc
  | .data b => Vfs.rc b.isSome
  | .entries es => Vfs.rc es.isSome
  | .stat st => Vfs.rc st.isSome

/-- One call -/
def step (s : State) : Op → Except Fault (Reply × State)
  | .mkdir p => return (← vfsMkdir s p.chars).map .code id
  | .rmdir p => return (← vfsRmdir s p.chars).map .code id
  | .touch p => return (← vfsTouch s p.chars).map .code id
  | .remove p => return (← vfsRemove s p.chars).map .code id
  | .read p cap => return (← vfsRead s p.chars cap).map .data id
  | .write p d append => return (← vfsWrite s p.chars d append).map .code id
  | .copy src dst => return (← vfsCopy s src.chars dst.chars).map .code id
  | .move src dst => return (← vfsMove s src.chars dst.chars).map .code id
  | .list p max => return (.entries (← vfsList s p.chars max), s)
  | .stat p => return (.stat (← vfsStatPath s p.chars), s)

end MinOS.Vfs
