/-
# MinOS.Pmm.Model — `kernel/pmm.c`, function by function.

The bitmap and the three counters are one state, `State`. Counters are `UInt64` and wrap as the source's
do. A frame number in a loop is a natural number: no loop of the source runs past its bound, and a frame
number past the bitmap is a fault before anything is read, so nothing depends on its width. A word
index outside `bitmap[]` is a `Fault`.

`bitmap_clear` on a clear bit, the second half of the loop over a conventional descriptor, is kept:
the bitmap starts with every frame clear, which the same file reads as free. Serial output is left out.
-/
import MinOS.BootInfo
import MinOS.Lib.Bitmap
import MinOS.Lib.Machine

namespace MinOS.Pmm

open MinOS.Boot
open Machine (forRange)

/-! ## The bitmap -/

/-- `PMM_MAX_FRAMES` -/
def pmmMaxFrames : Nat := 64 * 1024 * 1024 * 1024 / 4096
/-- `PMM_BITMAP_WORDS` -/
def pmmBitmapWords : Nat := (pmmMaxFrames + 63) / 64

/-- Where an execution leaves the behaviour the language defines -/
inductive Fault
  /-- `bitmap[word]` with `word` not below `PMM_BITMAP_WORDS` -/
  | bitmapIndex (word : Nat)
  deriving DecidableEq, Repr

/-- The statics of `pmm.c` -/
structure State where
  bitmap : Nat → BitVec 64
  totalFrames : UInt64
  freeFrames : UInt64
  reservedBytesTotal : UInt64

/-- `bitmap[word]` -/
def word (s : State) (i : Nat) : Except Fault (BitVec 64) :=
  if i < pmmBitmapWords then .ok (s.bitmap i) else .error (.bitmapIndex i)

/-- `bitmap[word] = value` -/
def setWord (s : State) (i : Nat) (value : BitVec 64) : Except Fault State :=
  if i < pmmBitmapWords then .ok { s with bitmap := Function.update s.bitmap i value }
  else .error (.bitmapIndex i)

/-- `bitmap_set` -/
def bitmapSet (s : State) (frame : Nat) : Except Fault State := do
  let old ← word s (frame >>> 6)
  setWord s (frame >>> 6) (old ||| 1#64 <<< (frame &&& 63))

/-- `bitmap_clear` -/
def bitmapClear (s : State) (frame : Nat) : Except Fault State := do
  let old ← word s (frame >>> 6)
  setWord s (frame >>> 6) (old &&& ~~~(1#64 <<< (frame &&& 63)))

/-- `bitmap_test` -/
def bitmapTest (s : State) (frame : Nat) : Except Fault Bool := do
  let w ← word s (frame >>> 6)
  .ok (w >>> (frame &&& 63) &&& 1#64 != 0#64)

/-! ## Ranges -/

/-- `if (!bitmap_test(f)) { bitmap_set(f); --free_frames; }` -/
def reserveFrame (f : Nat) (s : State) : Except Fault State := do
  if ← bitmapTest s f then .ok s
  else
    let s' ← bitmapSet s f
    .ok { s' with freeFrames := s'.freeFrames - 1 }

/-- `reserve_range` -/
def reserveRange (start stop : UInt64) (s : State) : Except Fault State := do
  let s' ← forRange reserveFrame (stop.toNat - start.toNat) start.toNat s
  .ok { s' with reservedBytesTotal := s'.reservedBytesTotal + (stop - start) * 4096 }

/-- `if (!bitmap_test(f)) { bitmap_clear(f); ++free_frames; }` -/
def countFrame (f : Nat) (s : State) : Except Fault State := do
  if ← bitmapTest s f then .ok s
  else
    let s' ← bitmapClear s f
    .ok { s' with freeFrames := s'.freeFrames + 1 }

/-! ## `pmm_init` -/

/-- `PMM_MAX_FRAMES * 4096ULL` -/
def pmmMaxBytes : UInt64 := 64 * 1024 * 1024 * 1024

/-- `s` in the loop over the descriptors -/
def roundedStart (d : EfiMemoryDescriptor) : UInt64 := (d.physicalStart + 4095) &&& ~~~4095

/-- `e` in the loop over the descriptors, after the clamp -/
def clampedEnd (d : EfiMemoryDescriptor) : UInt64 :=
  let e := d.physicalStart + d.numberOfPages * 4096
  if e > pmmMaxBytes then pmmMaxBytes else e

/-- One iteration of the loop over the descriptors -/
def initDescriptor (d : EfiMemoryDescriptor) (s : State) : Except Fault State :=
  if d.type ≠ efiConventionalMemory then
    .ok { s with reservedBytesTotal := s.reservedBytesTotal + d.numberOfPages * 4096 }
  else if d.numberOfPages = 0 then .ok s
  else do
    let first := (roundedStart d / 4096).toNat
    let s' ← forRange countFrame ((clampedEnd d / 4096).toNat - first) first s
    .ok { s' with totalFrames := s'.totalFrames + (clampedEnd d - roundedStart d) / 4096 }

/-- The loop over the descriptors -/
def initDescriptors : List EfiMemoryDescriptor → State → Except Fault State
  | [], s => .ok s
  | d :: ds, s => do
    let s' ← initDescriptor d s
    initDescriptors ds s'

/-- A byte range of physical memory -/
structure Region where
  base : UInt64
  size : UInt64
  deriving DecidableEq, Repr

/-- `base / 4096ULL` -/
def Region.firstFrame (r : Region) : UInt64 := r.base / 4096

/-- `(base + size + 4095ULL) / 4096ULL` -/
def Region.lastFrame (r : Region) : UInt64 := (r.base + r.size + 4095) / 4096

/-- The kernel-reserved regions, in the order `pmm_init` reserves them: the initrd if there is one, the
boot info, the memory map, the framebuffer, the kernel image and the bootstrap stack -/
def reservedRegions (info : BootInfo) : List Region :=
  (if info.initrdSize ≠ 0 then [⟨info.initrdBase, info.initrdSize⟩] else []) ++
    [⟨info.self, sizeofBootInfo⟩, ⟨info.memoryMap, info.memoryMapSize⟩, ⟨info.fbBase, info.fbSize⟩,
      ⟨info.kernelImageBase, info.kernelImageSize⟩,
      ⟨info.bootstrapStackBase, info.bootstrapStackSize⟩]

/-- The calls of `reserve_range` at the end of `pmm_init` -/
def reserveRegions : List Region → State → Except Fault State
  | [], s => .ok s
  | r :: rs, s => do
    let s' ← reserveRange r.firstFrame r.lastFrame s
    reserveRegions rs s'

/-- The bitmap zeroed word by word and the three counters set to zero -/
def State.zero : State :=
  { bitmap := fun _ => 0#64, totalFrames := 0, freeFrames := 0, reservedBytesTotal := 0 }

/-- `pmm_init` -/
def pmmInit : Option BootInfo → Except Fault State
  | none => .ok State.zero
  | some info =>
    if info.HasMap then do
      let s ← initDescriptors info.descriptors State.zero
      reserveRegions (reservedRegions info) s
    else .ok State.zero

/-! ## Allocation -/

/-- The loop of `pmm_alloc_frame` with `count` iterations to go, at frame `f` -/
def allocFrameFrom : Nat → Nat → State → Except Fault (UInt64 × State)
  | 0, _, s => .ok (0, s)
  | count + 1, f, s => do
    if ← bitmapTest s f then allocFrameFrom count (f + 1) s
    else
      let s' ← bitmapSet s f
      .ok (UInt64.ofNat f * 4096, { s' with freeFrames := s'.freeFrames - 1 })

/-- `pmm_alloc_frame` -/
def pmmAllocFrame (s : State) : Except Fault (UInt64 × State) :=
  allocFrameFrom (s.totalFrames.toNat - 1) 1 s

/-- `ok` after `for (j = 0; j < count; ++j) if (bitmap_test(f + j)) { ok = 0; break; }` -/
def rangeIsClear (s : State) : Nat → Nat → Except Fault Bool
  | 0, _ => .ok true
  | count + 1, f => do
    if ← bitmapTest s f then .ok false else rangeIsClear s count (f + 1)

/-- The loop of `pmm_alloc_frames` at frame `f`. The guard fails by `f = total_frames`, so
`total_frames` iterations from `f = 1` are as many as there are. -/
def allocFramesFrom (count : UInt32) : Nat → Nat → State → Except Fault (UInt64 × State)
  | 0, _, s => .ok (0, s)
  | fuel + 1, f, s =>
    if (f + count.toNat) % 2 ^ 64 ≤ s.totalFrames.toNat then do
      if ← rangeIsClear s count.toNat f then
        let s' ← forRange (fun g t => bitmapSet t g) count.toNat f s
        .ok (UInt64.ofNat f * 4096, { s' with freeFrames := s'.freeFrames - count.toUInt64 })
      else allocFramesFrom count fuel (f + 1) s
    else .ok (0, s)

/-- `pmm_alloc_frames` -/
def pmmAllocFrames (count : UInt32) (s : State) : Except Fault (UInt64 × State) :=
  if count = 0 then .ok (0, s) else allocFramesFrom count s.totalFrames.toNat 1 s

/-- `pmm_free_frame` -/
def pmmFreeFrame (frame : UInt64) (s : State) : Except Fault State :=
  if frame = 0 ∨ frame &&& 4095 ≠ 0 then .ok s
  else
    let f := frame / 4096
    if f < s.totalFrames then do
      if ← bitmapTest s f.toNat then
        let s' ← bitmapClear s f.toNat
        .ok { s' with freeFrames := s'.freeFrames + 1 }
      else .ok s
    else .ok s

/-- `pmm_is_available` -/
def pmmIsAvailable (frame : UInt64) (s : State) : Except Fault Bool :=
  if frame = 0 ∨ frame &&& 4095 ≠ 0 then .ok false
  else
    let f := frame / 4096
    if f < s.totalFrames then do
      let used ← bitmapTest s f.toNat
      .ok (!used)
    else .ok false

/-- `pmm_reserve`: 0 or -1 -/
def pmmReserve (start size : UInt64) (s : State) : Except Fault (Int × State) :=
  if size = 0 then .ok (-1, s)
  else
    let first := (start + 4095) &&& ~~~4095
    let last := (start + size + 4095) &&& ~~~4095
    if last > pmmMaxBytes then .ok (-1, s)
    else do
      let s' ← reserveRange (first / 4096) (last / 4096) s
      .ok (0, s')

/-- `pmm_free_frames` -/
def pmmFreeFrames (s : State) : UInt64 := s.freeFrames

end MinOS.Pmm
