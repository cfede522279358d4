/-
# MinOS.BootInfo — what the loader hands to the kernel.

The fields of `MinOS_BootInfo` that the memory managers read, the UEFI memory map behind its
`memory_map` pointer, and `update_boot_info`, which fills the two byte totals from that map. The
map is a function from entry numbers to descriptors: entry `i` is what lies `i * descriptor_size`
bytes after `memory_map`, whatever `descriptor_size` is.

The second half is the vocabulary of the memory map in terms of bytes and frames: which bytes a
descriptor covers, which frames are conventional memory, when descriptors are aligned and disjoint.
-/
import Mathlib.Data.Finset.Card
import Mathlib.Data.Finset.Lattice.Fold
import Mathlib.Order.Interval.Finset.Nat

namespace MinOS.Boot

/-! ## `boot/efi.h` and `boot/bootinfo.h` -/

/-- `EFI_MEMORY_DESCRIPTOR`; `Type` is a raw `UINT32`, firmware may use values outside the enumeration -/
structure EfiMemoryDescriptor where
  type : UInt32
  physicalStart : UInt64
  numberOfPages : UInt64
  deriving DecidableEq, Repr

/-- `EfiLoaderCode` -/
def efiLoaderCode : UInt32 := 1
/-- `EfiLoaderData` -/
def efiLoaderData : UInt32 := 2
/-- `EfiBootServicesCode` -/
def efiBootServicesCode : UInt32 := 3
/-- `EfiBootServicesData` -/
def efiBootServicesData : UInt32 := 4
/-- `EfiConventionalMemory` -/
def efiConventionalMemory : UInt32 := 7

/-- `MinOS_BootInfo`, with the address it lies at -/
structure BootInfo where
  /-- `(uint64_t)(uintptr_t)info` -/
  self : UInt64
  fbBase : UInt64
  fbSize : UInt64
  totalMemoryBytes : UInt64
  usableMemoryBytes : UInt64
  memoryMapSize : UInt64
  descriptorSize : UInt64
  descriptorVersion : UInt32
  memoryMap : UInt64
  /-- `*(EFI_MEMORY_DESCRIPTOR *)((uint8_t *)memory_map + i * descriptor_size)` -/
  descriptorAt : Nat → EfiMemoryDescriptor
  kernelImageBase : UInt64
  kernelImageSize : UInt64
  bootstrapStackBase : UInt64
  bootstrapStackSize : UInt64
  initrdBase : UInt64
  initrdSize : UInt64

/-- `sizeof(MinOS_BootInfo)` -/
def sizeofBootInfo : UInt64 := 160

/-- `memory_map && descriptor_size`: there is a map to walk. -/
def BootInfo.HasMap (info : BootInfo) : Prop := info.memoryMap ≠ 0 ∧ info.descriptorSize ≠ 0

instance (info : BootInfo) : Decidable info.HasMap := inferInstanceAs (Decidable (_ ∧ _))

/-- The entries `for (i = 0; i < memory_map_size / descriptor_size; ++i)` visits, in order; none
without a map -/
def BootInfo.descriptors (info : BootInfo) : List EfiMemoryDescriptor :=
  if info.HasMap then
    (List.range (info.memoryMapSize / info.descriptorSize).toNat).map info.descriptorAt
  else []

/-! ## `boot/bootx64.c` -/

/-- `UINT64_MAX` -/
def uint64Max : UInt64 := 0xFFFFFFFFFFFFFFFF

/-- `add_saturating` -/
def addSaturating (left right : UInt64) : UInt64 :=
  if right > uint64Max - left then uint64Max else left + right

/-- `region_size` in `update_boot_info` -/
def regionSize (desc : EfiMemoryDescriptor) : UInt64 :=
  if desc.numberOfPages > uint64Max / 4096 then uint64Max else desc.numberOfPages * 4096

/-- The types whose regions count as usable -/
def countsAsUsable (desc : EfiMemoryDescriptor) : Bool :=
  desc.type == efiConventionalMemory || desc.type == efiBootServicesCode ||
    desc.type == efiBootServicesData || desc.type == efiLoaderCode || desc.type == efiLoaderData

/-- One iteration of the loop of `update_boot_info` on `(total_bytes, usable_bytes)` -/
def sumRegion (sums : UInt64 × UInt64) (desc : EfiMemoryDescriptor) : UInt64 × UInt64 :=
  (addSaturating sums.1 (regionSize desc),
    if countsAsUsable desc then addSaturating sums.2 (regionSize desc) else sums.2)

/-- The first four assignments of `update_boot_info`; `descriptorAt` reads the map at `mem_map` -/
def BootInfo.withMap (info : BootInfo) (memMap mapSize descSize : UInt64) (descVer : UInt32)
    (descriptorAt : Nat → EfiMemoryDescriptor) : BootInfo :=
  { info with
    memoryMap := memMap
    memoryMapSize := mapSize
    descriptorSize := descSize
    descriptorVersion := descVer
    descriptorAt := descriptorAt }

/-- `update_boot_info(mem_map, map_size, desc_size, desc_ver)`; without a map the totals stay as they
were -/
def updateBootInfo (info : BootInfo) (memMap mapSize descSize : UInt64) (descVer : UInt32)
    (descriptorAt : Nat → EfiMemoryDescriptor) : BootInfo :=
  let placed := info.withMap memMap mapSize descSize descVer descriptorAt
  if placed.HasMap then
    let sums := placed.descriptors.foldl sumRegion (0, 0)
    { placed with totalMemoryBytes := sums.1, usableMemoryBytes := sums.2 }
  else placed

/-! ## Bytes and frames of a memory map -/

/-- `d` describes conventional memory. -/
def EfiMemoryDescriptor.IsConventional (d : EfiMemoryDescriptor) : Prop :=
  d.type = efiConventionalMemory

instance (d : EfiMemoryDescriptor) : Decidable d.IsConventional :=
  inferInstanceAs (Decidable (_ = _))

/-- One past the last byte described, without wrapping -/
def EfiMemoryDescriptor.endByte (d : EfiMemoryDescriptor) : Nat :=
  d.physicalStart.toNat + d.numberOfPages.toNat * 4096

/-- Byte `b` of physical memory belongs to `d`. -/
def EfiMemoryDescriptor.Covers (d : EfiMemoryDescriptor) (b : Nat) : Prop :=
  d.physicalStart.toNat ≤ b ∧ b < d.endByte

/-- The 4 KiB frame number `f` lies entirely inside some conventional descriptor of the map. -/
def BootInfo.Conventional (info : BootInfo) (f : Nat) : Prop :=
  ∃ d ∈ info.descriptors, d.IsConventional ∧ ∀ b, b / 4096 = f → d.Covers b

/-- The descriptors start on page boundaries and no byte belongs to two of them. -/
structure BootInfo.MapWellFormed (info : BootInfo) : Prop where
  aligned : ∀ d ∈ info.descriptors, 4096 ∣ d.physicalStart.toNat
  disjoint : info.descriptors.Pairwise fun d d' => ∀ b, d.Covers b → ¬ d'.Covers b

end MinOS.Boot
