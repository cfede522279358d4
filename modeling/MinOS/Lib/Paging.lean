/-
# MinOS.Lib.Paging — the x86-64 four-level page walk.

What the processor makes of a linear address, as a function of physical memory and CR3. Memory is a
function from byte addresses to the 64-bit word stored there; tables are read at multiples of 8. A walk
fails on an address that is not canonical, on an entry that is not present and on a reserved bit: the
page-size bit in a PML4 entry, and the address bits below the page size in a large-page entry (bit 12
there is the PAT bit). Write and user permission are the conjunction over the entries of the walk.
-/
import Mathlib.Data.List.Basic
import MinOS.Lib.Word

namespace Paging

/-- Physical memory: the 64-bit word at a byte address -/
abbrev Memory := UInt64 → UInt64

/-! ## Entries -/

/-- Bit 0 -/
def present (e : UInt64) : Bool := e &&& 1 != 0
/-- Bit 1 -/
def writable (e : UInt64) : Bool := e &&& 2 != 0
/-- Bit 2 -/
def user (e : UInt64) : Bool := e &&& 4 != 0
/-- Bit 7 -/
def pageSize (e : UInt64) : Bool := e &&& 0x80 != 0
/-- Bits 51:12 -/
def address (e : UInt64) : UInt64 := e &&& 0x000FFFFFFFFFF000

/-- Bits 63:47 are all equal. -/
def canonical (v : UInt64) : Bool := v < 0x800000000000 || v ≥ 0xFFFF800000000000

/-- Entry `(v >> shift) & 511` of the table at `table` -/
def entry (mem : Memory) (table v shift : UInt64) : UInt64 :=
  mem (table + 8 * (v >>> shift &&& 0x1FF))

/-! ## The walk -/

/-- What a linear address translates to -/
structure Mapping where
  physical : UInt64
  writable : Bool
  user : Bool
  deriving DecidableEq, Repr

/-- The page of `size` bytes that the entry `e` maps, at the offset of `v` -/
def leaf (e v size : UInt64) (w u : Bool) : Option Mapping :=
  if address e &&& (size - 1) &&& ~~~0x1000 ≠ 0 then none
  else some ⟨(address e &&& ~~~(size - 1)) + (v &&& (size - 1)), w && writable e, u && user e⟩

/-- The last level: a 4 KiB page -/
def walkPt (mem : Memory) (table v : UInt64) (w u : Bool) : Option Mapping :=
  let e := entry mem table v 12
  if present e then
    some ⟨address e + (v &&& 0xFFF), w && writable e, u && user e⟩
  else none

/-- The page directory: a 2 MiB page or a page table -/
def walkPd (mem : Memory) (table v : UInt64) (w u : Bool) : Option Mapping :=
  let e := entry mem table v 21
  if present e then
    if pageSize e then leaf e v 0x200000 w u
    else walkPt mem (address e) v (w && writable e) (u && user e)
  else none

/-- The page-directory-pointer table: a 1 GiB page or a page directory -/
def walkPdpt (mem : Memory) (table v : UInt64) (w u : Bool) : Option Mapping :=
  let e := entry mem table v 30
  if present e then
    if pageSize e then leaf e v 0x40000000 w u
    else walkPd mem (address e) v (w && writable e) (u && user e)
  else none

/-- The translation of `v` -/
def translate (mem : Memory) (cr3 v : UInt64) : Option Mapping :=
  if canonical v then
    let e := entry mem (address cr3) v 39
    if present e && !pageSize e then walkPdpt mem (address e) v (writable e) (user e) else none
  else none

/-- The tables the walk of `v` reads, from the PML4 down -/
def tables (mem : Memory) (cr3 v : UInt64) : List UInt64 :=
  let e4 := entry mem (address cr3) v 39
  let e3 := entry mem (address e4) v 30
  let e2 := entry mem (address e3) v 21
  if !present e4 then [address cr3]
  else if !present e3 || pageSize e3 then [address cr3, address e4]
  else if !present e2 || pageSize e2 then [address cr3, address e4, address e3]
  else [address cr3, address e4, address e3, address e2]

/-! ## Entries as numbers -/

theorem pageSize_iff (e : UInt64) : pageSize e = true ↔ e.toNat / 128 % 2 = 1 := by
  exact bne_iff_ne.trans (Word.and_bit_ne_zero_iff (k := 7) e 0x80 rfl)

theorem toNat_address (e : UInt64) : (address e).toNat = e.toNat % 2 ^ 52 / 4096 * 4096 := by
  have hmask : (0x000FFFFFFFFFF000 : UInt64) = 0xFFFFFFFFFFFFF &&& ~~~0xFFF := by decide
  rw [address, hmask, ← UInt64.and_assoc, Word.toNat_and_not_low (k := 12) _ _ rfl,
    Word.toNat_and_low (k := 52) _ _ rfl]
  rfl

/-! ## Walks that end early -/

variable {mem : Memory} {cr3 v : UInt64}

/-- A PML4 entry that is not present, or has the reserved page-size bit, translates nothing. -/
theorem translate_of_pml4 (h : (present (entry mem (address cr3) v 39) &&
    !pageSize (entry mem (address cr3) v 39)) = false) : translate mem cr3 v = none := by
  simp only [translate, h, Bool.false_eq_true, if_false, ite_self]

/-- Nor does a PDPT entry that is not present. -/
theorem translate_of_pdpt
    (h : present (entry mem (address (entry mem (address cr3) v 39)) v 30) = false) :
    translate mem cr3 v = none := by
  simp only [translate, walkPdpt, h, Bool.false_eq_true, if_false, ite_self]

end Paging
