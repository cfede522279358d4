/-
# MinOS.Heap — `kernel/heap.c`.

The statics of `heap.c`, the mapper and the frame allocator below it, and the slab headers by address are
one state. The loop of `kmalloc` over the free list is bounded by a number of steps; running out of them
is `Stop.steps`, so that a list that does not end is not taken for one that does.

The heap's window starts at `0xFFFF8000FFC00000`, above `MINOS_HHDM_BASE`, where `vmm_map_user_page` refuses
every page. So `slab_alloc` gives its frame back each time, no slab ever exists, and `kmalloc` returns NULL
for every request in every state a run reaches.
-/
import MinOS.Vmm.Boot

namespace MinOS.Heap

open MinOS.Boot (BootInfo)
open MinOS.Pmm (pmmInit pmmAllocFrame pmmAllocFrame_cases pmmFreeFrame frameAddress)
open MinOS.Vmm (hhdmBase vmmInit vmmMapUserPage)
open Machine (bind_eq_ok_iff ok_bind)

/-! ## State -/

/-- `HEAP_MAGIC` -/
def heapMagic : UInt64 := 0x4D4F5348

/-- `sizeof(slab_header)` -/
def slabHeaderSize : Nat := 24

/-- `slab_header` -/
structure SlabHeader where
  next : UInt64
  magic : UInt64
  size : UInt32
  free : UInt8
  deriving DecidableEq, Repr

/-- The statics of `heap.c` with what they act on; `headers` is what memory holds where a header is
looked for -/
structure State where
  vmm : Vmm.State
  headers : UInt64 → SlabHeader
  heapBase : UInt64
  heapTop : UInt64
  heapLimit : UInt64
  freeList : UInt64

/-- Why a call does not return -/
inductive Stop
  /-- A frame bitmap access out of range -/
  | fault (f : Pmm.Fault)
  /-- More steps than allowed along the free list -/
  | steps
  deriving DecidableEq, Repr

def State.setHeader (s : State) (h : UInt64) (header : SlabHeader) : State :=
  { s with headers := Function.update s.headers h header }

/-! ## The functions of the source -/

/-- `heap_init` -/
def heapInit (s : State) : State :=
  { s with
    heapBase := 0xFFFF8000FFC00000
    heapLimit := 0xFFFF8000FFFF0000
    heapTop := 0xFFFF8000FFC00000
    freeList := 0 }

/-- `slab_alloc`, whose argument the source ignores; 0 is NULL -/
def slabAlloc (s : State) : Except Pmm.Fault (UInt64 × State) := do
  let (page, pmm) ← pmmAllocFrame s.vmm.pmm
  if page = 0 then .ok (0, { s with vmm := { s.vmm with pmm := pmm } })
  else
    let (r, vmm) ← vmmMapUserPage page s.heapTop { s.vmm with pmm := pmm }
    if r ≠ 0 then
      let pmm ← pmmFreeFrame page vmm.pmm
      .ok (0, { s with vmm := { vmm with pmm := pmm } })
    else
      let h := s.heapTop + hhdmBase
      let header : SlabHeader :=
        { magic := heapMagic, size := UInt32.ofNat (4096 - slabHeaderSize), free := 1, next := s.freeList }
      .ok (h, { s.setHeader h header with vmm := vmm, freeList := h, heapTop := s.heapTop + 4096 })

/-- The loop of `kmalloc`: the first free slab from `h` on that is large enough, 0 at the end of the list,
nothing when the steps run out -/
def firstFit (headers : UInt64 → SlabHeader) (size : UInt32) : Nat → UInt64 → Option UInt64
  | 0, h => if h = 0 then some 0 else none
  | steps + 1, h =>
    if h = 0 then some 0
    else if (headers h).free ≠ 0 ∧ (headers h).size ≥ size then some h
    else firstFit headers size steps (headers h).next

/-- `h->free = value` -/
def State.setFree (s : State) (h : UInt64) (value : UInt8) : State :=
  s.setHeader h { s.headers h with free := value }

/-- `kmalloc` with at most `steps` steps along the free list; 0 is NULL -/
def kmalloc (steps : Nat) (size : UInt32) (s : State) : Except Stop (UInt64 × State) :=
  if size = 0 then .ok (0, s)
  else
    let size := (size + 15) &&& ~~~15
    match firstFit s.headers size steps s.freeList with
    | none => .error .steps
    | some h =>
      if h ≠ 0 then .ok (h + UInt64.ofNat slabHeaderSize, s.setFree h 0)
      else
        match slabAlloc s with
        | .error f => .error (.fault f)
        | .ok (h, s) =>
          if h = 0 then .ok (0, s) else .ok (h + UInt64.ofNat slabHeaderSize, s.setFree h 0)

/-- `kfree` -/
def kfree (ptr : UInt64) (s : State) : State :=
  if ptr = 0 then s
  else
    let h := ptr - UInt64.ofNat slabHeaderSize
    if (s.headers h).magic ≠ heapMagic then s else s.setFree h 1

/-! ## Runs -/

/-- The states reached from `s₀` by calls of `kmalloc` and `kfree`, `kfree` with any pointer at all -/
inductive Run (s₀ : State) : State → Prop
  | start : Run s₀ s₀
  | kmalloc {s s' : State} {ptr : UInt64} (h : Run s₀ s) (steps : Nat) (size : UInt32)
      (hcall : kmalloc steps size s = .ok (ptr, s')) : Run s₀ s'
  | kfree {s : State} (h : Run s₀ s) (ptr : UInt64) : Run s₀ (kfree ptr s)

/-- Where the kernel is once `pmm_init`, `vmm_init` and `heap_init` have run, from any memory and
whatever the result of `vmm_init` -/
inductive Initialised (info : Option BootInfo) : State → Prop
  | init {q : Pmm.State} {m m' : Vmm.State} {r : Vmm.InitResult} (s : State)
      (hpmm : pmmInit info = .ok q) (hq : m.pmm = q) (hvmm : vmmInit info m = .ok (r, m')) :
      Initialised info (heapInit { s with vmm := m' })

/-- What `kmalloc` is for: it returns, and the pointer lies in the page at `heap_top`. -/
def Served (s : State) (size : UInt32) : Prop :=
  ∃ steps ptr s', kmalloc steps size s = .ok (ptr, s') ∧ ptr ≠ 0 ∧
    s.heapTop.toNat ≤ ptr.toNat ∧ ptr.toNat < s.heapTop.toNat + 4096

/-! ## No slab is ever made -/

variable {s s' s₀ : State}

/-- The mapper refuses every page from the direct map on. -/
theorem vmmMapUserPage_refuses {v : UInt64} (hv : v ≥ hhdmBase) (page : UInt64) (m : Vmm.State) :
    vmmMapUserPage page v m = .ok (-1, m) := by
  have hrefuses : Vmm.refusesVirtual v = true := by
    rw [Vmm.refusesVirtual, decide_eq_true hv, Bool.or_true]
  exact if_pos (Or.inr (Or.inr hrefuses))

/-- What every call keeps: there are no slabs and nothing was ever mapped. -/
structure Barren (s : State) : Prop where
  heapTop : s.heapTop = 0xFFFF8000FFC00000
  heapLimit : s.heapLimit = 0xFFFF8000FFFF0000
  freeList : s.freeList = 0

theorem barren_heapInit (s : State) : Barren (heapInit s) := ⟨rfl, rfl, rfl⟩

theorem Barren.refuses (h : Barren s) : s.heapTop ≥ hhdmBase := by
  rw [h.heapTop]
  decide

/-- `slab_alloc` returns NULL, and changes nothing but the allocator. -/
theorem barren_slabAlloc {ptr : UInt64} (h : Barren s) (hcall : slabAlloc s = .ok (ptr, s')) :
    ptr = 0 ∧ Barren s' := by
  obtain ⟨⟨page, q⟩, -, hrest⟩ := bind_eq_ok_iff.mp hcall
  change (if page = 0 then _ else _) = _ at hrest
  split at hrest
  · cases hrest
    exact ⟨rfl, h.heapTop, h.heapLimit, h.freeList⟩
  · -- The frame was taken; the mapping is refused and the frame goes back.
    rw [vmmMapUserPage_refuses h.refuses, ok_bind] at hrest
    change (if (-1 : Int) ≠ 0 then _ else _) = _ at hrest
    rw [if_pos (by decide)] at hrest
    obtain ⟨q', -, hlast⟩ := bind_eq_ok_iff.mp hrest
    cases hlast
    exact ⟨rfl, h.heapTop, h.heapLimit, h.freeList⟩

theorem firstFit_zero (headers : UInt64 → SlabHeader) (size : UInt32) (steps : Nat) :
    firstFit headers size steps 0 = some 0 := by
  cases steps with
  | zero => exact if_pos rfl
  | succ steps => exact if_pos rfl

/-- With no slab in the list, `kmalloc` is `slab_alloc`. -/
theorem kmalloc_eq_slabAlloc {size : UInt32} (h : Barren s) (hsize : size ≠ 0) (steps : Nat) :
    kmalloc steps size s =
      match slabAlloc s with
      | .error f => .error (.fault f)
      | .ok (h, s) =>
        if h = 0 then .ok (0, s) else .ok (h + UInt64.ofNat slabHeaderSize, s.setFree h 0) := by
  rw [kmalloc, if_neg hsize]
  dsimp only
  rw [h.freeList, firstFit_zero]
  exact if_neg (not_not_intro rfl)

theorem barren_kmalloc {ptr : UInt64} {size : UInt32} {steps : Nat} (h : Barren s)
    (hcall : kmalloc steps size s = .ok (ptr, s')) : ptr = 0 ∧ Barren s' := by
  by_cases hsize : size = 0
  · rw [kmalloc, if_pos hsize] at hcall
    cases hcall
    exact ⟨rfl, h⟩
  · -- The free list is empty, so only `slab_alloc` could serve.
    rw [kmalloc_eq_slabAlloc h hsize] at hcall
    cases hslab : slabAlloc s with
    | error f =>
      rw [hslab] at hcall
      cases hcall
    | ok r =>
      obtain ⟨slab, t⟩ := r
      obtain ⟨rfl, ht⟩ := barren_slabAlloc h hslab
      rw [hslab] at hcall
      cases hcall
      exact ⟨rfl, ht⟩

theorem barren_kfree (h : Barren s) (ptr : UInt64) : Barren (kfree ptr s) := by
  rw [kfree]
  split
  · exact h
  · dsimp only
    split
    · exact h
    · exact ⟨h.heapTop, h.heapLimit, h.freeList⟩

theorem Run.barren (h : Run s₀ s) (h₀ : Barren s₀) : Barren s := by
  induction h with
  | start => exact h₀
  | kmalloc _ steps size hcall ih => exact (barren_kmalloc ih hcall).2
  | kfree _ ptr ih => exact barren_kfree ih ptr

/-! ## `kmalloc` returns -/

/-- Where a frame is left, `slab_alloc` takes it, is refused the mapping and gives it back. -/
theorem slabAlloc_runs {a : UInt64} {q : Pmm.State} (h : Barren s)
    (halloc : pmmAllocFrame s.vmm.pmm = .ok (a, q)) (ha : a ≠ 0) :
    ∃ s', slabAlloc s = .ok (0, s') := by
  rcases pmmAllocFrame_cases halloc with ⟨rfl, -, -⟩ | ⟨f, hpos, -, hmax, -, -, rfl, -⟩
  · exact absurd rfl ha
  · rw [slabAlloc, halloc, ok_bind]
    show ∃ s', (if frameAddress f = 0 then _ else _) = _
    rw [if_neg ha, vmmMapUserPage_refuses h.refuses, ok_bind]
    show ∃ s', (if (-1 : Int) ≠ 0 then _ else _) = _
    rw [if_pos (by decide), Pmm.pmmFreeFrame_eq hpos hmax, ok_bind]
    exact ⟨_, rfl⟩

theorem kmalloc_runs {a : UInt64} {q : Pmm.State} {size : UInt32} (h : Barren s)
    (halloc : pmmAllocFrame s.vmm.pmm = .ok (a, q)) (ha : a ≠ 0) (hsize : size ≠ 0) (steps : Nat) :
    ∃ s', kmalloc steps size s = .ok (0, s') := by
  obtain ⟨s', hs'⟩ := slabAlloc_runs h halloc ha
  rw [kmalloc_eq_slabAlloc h hsize, hs']
  exact ⟨s', rfl⟩

/-! ## Nothing is served -/

theorem Initialised.barren {info : Option BootInfo} (h : Initialised info s) : Barren s := by
  cases h with
  | init s _ _ _ => exact barren_heapInit _

/-- **No request is ever served.** In every state that a run of `kmalloc` and `kfree` reaches after boot,
`heap_top` is below `heap_limit`; and while a frame is left, `kmalloc` returns NULL for every size. -/
theorem no_request_served (info : Option BootInfo) (s₀ s : State) (hinit : Initialised info s₀)
    (hrun : Run s₀ s) (size : UInt32) (hsize : 1 ≤ size.toNat) (a : UInt64) (q : Pmm.State)
    (halloc : pmmAllocFrame s.vmm.pmm = .ok (a, q)) (ha : a ≠ 0) :
    s.heapTop < s.heapLimit ∧ (∀ steps, ∃ s', kmalloc steps size s = .ok (0, s')) ∧
      ¬ Served s size := by
  have hbarren := hrun.barren hinit.barren
  have hne : size ≠ 0 := by
    rintro rfl
    exact absurd hsize (by decide)
  refine ⟨?_, kmalloc_runs hbarren halloc ha hne, ?_⟩
  · rw [hbarren.heapTop, hbarren.heapLimit]
    decide
  · rintro ⟨steps, ptr, s', hcall, hptr, -, -⟩
    exact hptr (barren_kmalloc hbarren hcall).1

/-- On a machine with 2 MiB of memory frames are left once the kernel has booted. -/
theorem initialised_flatMemory :
    ∃ s₀ a q, Initialised (some (Pmm.oneEntryInfo Pmm.flatMemory)) s₀ ∧
      pmmAllocFrame s₀.vmm.pmm = .ok (a, q) ∧ a ≠ 0 := by
  obtain ⟨q₀, hq₀⟩ := Pmm.pmmInit_oneEntryInfo (d := Pmm.flatMemory) (by decide) (by decide)
  have hboot := Pmm.bootedBelow (Pmm.mapWellFormed_oneEntryInfo (d := Pmm.flatMemory) (by decide))
    (Pmm.conventionalBelow_oneEntryInfo (by decide)) hq₀
  have hpages := Pmm.conventionalPages_oneEntryInfo (d := Pmm.flatMemory) rfl
  obtain ⟨m, hm⟩ := Vmm.vmmInit_of_booted hboot (Pmm.initiallyUsed_oneEntryInfo _) hpages
  obtain ⟨k, p, hk, hp, hpmm⟩ := Vmm.vmmInit_takes_two hm (by decide)
  change m.pmm = (q₀.take k).take p at hpmm
  have htotal : m.pmm.totalFrames.toNat = 512 := by
    rw [hpmm]
    exact hboot.totalFrames.trans hpages
  -- two of the first three frames at most are tables
  obtain ⟨f, hpos, hle, hfk, hfp⟩ : ∃ f, 1 ≤ f ∧ f ≤ 3 ∧ f ≠ k ∧ f ≠ p := by
    by_cases h1 : 1 ≠ k ∧ 1 ≠ p
    · exact ⟨1, by omega, by omega, h1.1, h1.2⟩
    · by_cases h2 : 2 ≠ k ∧ 2 ≠ p
      · exact ⟨2, by omega, by omega, h2.1, h2.2⟩
      · exact ⟨3, by omega, by omega, by omega, by omega⟩
  have hfree : f ∉ m.pmm.used := by
    rw [hpmm, Pmm.used_take hp, Pmm.used_take hk, hboot.booted.used, Pmm.initiallyUsed_oneEntryInfo]
    simp only [Finset.mem_insert, Finset.mem_singleton, not_or]
    exact ⟨hfp, hfk, by omega⟩
  obtain ⟨a, q, halloc⟩ := Pmm.pmmAllocFrame_runs (s := m.pmm) (by rw [htotal]; decide)
  refine ⟨_, a, q, Initialised.init ⟨m, fun _ => ⟨0, 0, 0, 0⟩, 0, 0, 0, 0⟩ hq₀ rfl hm, halloc, ?_⟩
  rcases pmmAllocFrame_cases halloc with ⟨-, -, hall⟩ | ⟨g, hg, -, hgmax, -, -, rfl, -⟩
  · exact absurd (hall f hpos (by omega)) hfree
  · exact Pmm.frameAddress_ne_zero hg hgmax

theorem no_request_served_flatMemory :
    ∃ s₀ a q, Initialised (some (Pmm.oneEntryInfo Pmm.flatMemory)) s₀ ∧
      pmmAllocFrame s₀.vmm.pmm = .ok (a, q) ∧ a ≠ 0 ∧ ¬ Served s₀ 16 := by
  obtain ⟨s₀, a, q, hinit, halloc, ha⟩ := initialised_flatMemory
  exact ⟨s₀, a, q, hinit, halloc, ha,
    (no_request_served _ s₀ s₀ hinit Run.start 16 (by decide) a q halloc ha).2.2⟩

/-- The first request of 16 bytes after boot, with 2 MiB of memory: a frame is left, `heap_top` is below
`heap_limit`, and `kmalloc` returns NULL. -/
theorem first_request_fails :
    ∃ s₀ a q s', Initialised (some (Pmm.oneEntryInfo Pmm.flatMemory)) s₀ ∧
      pmmAllocFrame s₀.vmm.pmm = .ok (a, q) ∧ a ≠ 0 ∧ s₀.heapTop < s₀.heapLimit ∧
      kmalloc 1 16 s₀ = .ok (0, s') := by
  obtain ⟨s₀, a, q, hinit, halloc, ha⟩ := initialised_flatMemory
  obtain ⟨s', hs'⟩ := kmalloc_runs hinit.barren halloc ha (by decide : (16 : UInt32) ≠ 0) 1
  refine ⟨s₀, a, q, s', hinit, halloc, ha, ?_, hs'⟩
  rw [hinit.barren.heapTop, hinit.barren.heapLimit]
  decide

end MinOS.Heap
