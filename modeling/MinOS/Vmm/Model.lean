/-
# MinOS.Vmm.Model — `kernel/vmm.c`, function by function.

The statics of `vmm.c`, CR3, the frame allocator and physical memory are one state. A pointer `t` is the
number the source computes with; dereferencing it reads or writes the physical word at
`t - MINOS_HHDM_BASE`, and NULL is 0. The two stages of `walk_pml4` are the same lines for two tables
and are one definition here, `nextTable`; the `out_pd` argument, NULL in every call, is left out, as are
serial output and `invlpg`.

The pointer that `walk_pml4` returns is `pd_table + pd_idx`, the entry itself. `vmm_init` indexes it by
`pd_idx` once more; `vmm_map_user_page` stores through it, at the page-directory level. Both are kept.
-/
import MinOS.Lib.Paging
import MinOS.Pmm.Model

namespace MinOS.Vmm

open MinOS.Boot
open MinOS.Pmm (Fault pmmAllocFrame)
open Machine (forRange)

/-! ## Constants -/

/-- `MINOS_HHDM_BASE` -/
def hhdmBase : UInt64 := 0xFFFF800000000000
/-- `MINOS_VMM_BOOTSTRAP_PAGE_SIZE` -/
def bootstrapPageSize : UInt64 := 2 * 1024 * 1024
/-- `MINOS_VMM_BOOTSTRAP_MAP_LIMIT` -/
def bootstrapMapLimit : UInt64 := 64 * 1024 * 1024 * 1024
/-- `MINOS_VMM_BOOTSTRAP_MAX_PAGES` -/
def bootstrapMaxPages : UInt64 := bootstrapMapLimit / bootstrapPageSize
/-- `MINOS_HHDM_PML4_INDEX` -/
def hhdmPml4Index : UInt64 := 256
/-- `PRESENT` -/
def PRESENT : UInt64 := 1
/-- `WRITE` -/
def WRITE : UInt64 := 2
/-- `HUGE` -/
def HUGE : UInt64 := 0x80

/-! ## State -/

/-- The statics of `vmm.c` with what they act on -/
structure State where
  pmm : Pmm.State
  mem : Paging.Memory
  kernelPml4 : UInt64
  mapped2mbPages : UInt64
  cr3 : UInt64

/-- `*ptr` -/
def State.load (s : State) (ptr : UInt64) : UInt64 := s.mem (ptr - hhdmBase)

/-- `*ptr = value` -/
def State.store (s : State) (ptr value : UInt64) : State :=
  { s with mem := Function.update s.mem (ptr - hhdmBase) value }

/-! ## Tables -/

/-- `table_alloc`; 0 is NULL -/
def tableAlloc (s : State) : Except Fault (UInt64 × State) := do
  let (phys, pmm) ← pmmAllocFrame s.pmm
  .ok (if phys = 0 then 0 else phys + hhdmBase, { s with pmm := pmm })

/-- `for (i = 0; i < 512; ++i) table[i] = 0;` with `count` entries to go, from entry `i` -/
def clearEntries (table : UInt64) : Nat → Nat → State → State
  | 0, _, s => s
  | count + 1, i, s => clearEntries table count (i + 1) (s.store (table + 8 * UInt64.ofNat i) 0)

def pml4Idx (vaddr : UInt64) : UInt64 := vaddr >>> 39 &&& 0x1FF
def pdptIdx (vaddr : UInt64) : UInt64 := vaddr >>> 30 &&& 0x1FF
def pdIdx (vaddr : UInt64) : UInt64 := vaddr >>> 21 &&& 0x1FF

/-- The table that entry `idx` of `table` points to, created if the pointer is NULL and `create` is set;
0 is NULL -/
def nextTable (table idx : UInt64) (create : Bool) (s : State) : Except Fault (UInt64 × State) :=
  let next := (s.load (table + 8 * idx) &&& ~~~0xFFF) + hhdmBase
  if next ≠ 0 then .ok (next, s)
  else if create then do
    let (fresh, s') ← tableAlloc s
    if fresh = 0 then .ok (0, s')
    else .ok (fresh, s'.store (table + 8 * idx) (fresh - hhdmBase ||| PRESENT ||| WRITE))
  else .ok (0, s)

/-- `walk_pml4`; 0 is NULL -/
def walkPml4 (pml4 vaddr : UInt64) (create : Bool) (s : State) : Except Fault (UInt64 × State) := do
  let (pdptTable, s) ← nextTable pml4 (pml4Idx vaddr) create s
  if pdptTable = 0 then .ok (0, s)
  else
    let (pdTable, s) ← nextTable pdptTable (pdptIdx vaddr) create s
    if pdTable = 0 then .ok (0, s)
    else .ok (pdTable + 8 * pdIdx vaddr, s)

/-! ## `vmm_init` -/

/-- The value stored for the 2 MiB page at `vaddr` -/
def hugeEntry (vaddr : UInt64) : UInt64 := vaddr ||| PRESENT ||| WRITE ||| HUGE

/-- `pd = walk_pml4(kernel_pml4, at, 1, NULL)`, then `pd[(at >> 21) & 0x1FF] = value` the given number
of times; the flag is whether `pd` was not NULL -/
def mapAt (vaddr value : UInt64) (stores : Nat) (s : State) : Except Fault (Bool × State) := do
  let (pd, s) ← walkPml4 s.kernelPml4 vaddr true s
  if pd = 0 then .ok (false, s)
  else .ok (true, (fun t => t.store (pd + 8 * pdIdx vaddr) value)^[stores] s)

/-- One iteration of the mapping loop; the first store is written twice in the source -/
def mapBootstrapPage (i : Nat) (s : State) : Except Fault State := do
  let vaddr := UInt64.ofNat i * bootstrapPageSize
  let (mapped, s) ← mapAt vaddr (hugeEntry vaddr) 2 s
  if mapped then
    let (_, s) ← mapAt (hhdmBase + vaddr) (hugeEntry vaddr) 1 s
    .ok s
  else .ok s

/-- `map_bytes`, as `vmm_init` computes it -/
def mapBytes (info : Option BootInfo) : UInt64 :=
  let maxPhys := match info with | some info => info.totalMemoryBytes | none => 0
  let b := if maxPhys = 0 then 2 * 1024 * 1024 else maxPhys
  let b := if b > bootstrapMapLimit then bootstrapMapLimit else b
  let kernelEnd := match info with | some info => info.kernelImageBase + info.kernelImageSize | none => 0
  let fbEnd := match info with | some info => info.fbBase + info.fbSize | none => 0
  let b := if kernelEnd > b then kernelEnd else b
  let b := if fbEnd > b then fbEnd else b
  if b > bootstrapMapLimit then bootstrapMapLimit else b

/-- `mapped_2mb_pages`, as `vmm_init` computes it -/
def bootstrapPages (info : Option BootInfo) : UInt64 :=
  let pages := (mapBytes info + bootstrapPageSize - 1) / bootstrapPageSize
  if pages > bootstrapMaxPages then bootstrapMaxPages else pages

/-- How `vmm_init` ends -/
inductive InitResult
  /-- "FATAL: PML4 allocation failed" -/
  | noPml4
  /-- "FATAL: PDPT allocation failed" -/
  | noPdpt
  /-- CR3 is loaded. -/
  | loaded
  deriving DecidableEq, Repr

/-- `vmm_init` -/
def vmmInit (info : Option BootInfo) (s : State) : Except Fault (InitResult × State) := do
  let (pml4, s) ← tableAlloc s
  let s := { s with kernelPml4 := pml4 }
  if pml4 = 0 then .ok (.noPml4, s)
  else
    let s := clearEntries pml4 512 0 s
    let (pdpt, s) ← tableAlloc s
    if pdpt = 0 then .ok (.noPdpt, s)
    else
      let s := clearEntries pdpt 512 0 s
      let s := s.store pml4 (pdpt - hhdmBase ||| PRESENT ||| WRITE)
      let s := s.store (pml4 + 8 * hhdmPml4Index) (pdpt - hhdmBase ||| PRESENT ||| WRITE)
      let s := { s with mapped2mbPages := bootstrapPages info }
      let s ← forRange mapBootstrapPage (bootstrapPages info).toNat 0 s
      .ok (.loaded, { s with cr3 := pml4 - hhdmBase })

/-! ## User pages -/

/-- The guards of `vmm_map_user_page` and `vmm_unmap_user_page` on the virtual address -/
def refusesVirtual (v : UInt64) : Bool := v == 0 || v &&& 4095 != 0 || v ≥ hhdmBase

/-- `vmm_map_user_page`: 0 or -1 -/
def vmmMapUserPage (physical v : UInt64) (s : State) : Except Fault (Int × State) :=
  if physical = 0 ∨ physical &&& 4095 ≠ 0 ∨ refusesVirtual v then .ok (-1, s)
  else do
    let (pte, s) ← walkPml4 s.kernelPml4 v true s
    if pte = 0 then .ok (-1, s)
    else .ok (0, s.store pte (physical ||| PRESENT ||| WRITE ||| 4))

/-- `vmm_unmap_user_page`: 0 or -1 -/
def vmmUnmapUserPage (v : UInt64) (s : State) : Except Fault (Int × State) :=
  if refusesVirtual v then .ok (-1, s)
  else do
    let (pte, s) ← walkPml4 s.kernelPml4 v false s
    if pte = 0 then .ok (-1, s) else .ok (0, s.store pte 0)

/-- `vmm_mapped_bytes` -/
def vmmMappedBytes (s : State) : UInt64 := s.mapped2mbPages * bootstrapPageSize

end MinOS.Vmm
