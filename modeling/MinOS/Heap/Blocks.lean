/-
# MinOS.Heap.Blocks — which blocks are as large as requested and lie in the heap's window.

The allocator and the mapper always succeed here, and any pointer at all may be freed. A slab is one page and
its header takes 24 bytes of it: a block has 4072 bytes, and the path that makes a new slab does not compare
that with the request. The header's address is `heap_top + MINOS_HHDM_BASE`, and `heap_top` already lies above
that base: the sum wraps, and the first block of every run lies below `heap_base`.
-/
import MinOS.Heap.Slabs

namespace MinOS.Heap

open MinOS.Vmm (hhdmBase)

/-- A frame was left and could be mapped. -/
def succeeds (o : Outcome) : Prop := o.page ≠ 0 ∧ o.result = 0

/-- Any pointer may be freed. -/
def anyPointer : History → UInt64 → Prop := fun _ _ => True

/-- The page that holds the header of the block at `ptr` -/
def headerPage (ptr : UInt64) : Nat := (ptr - UInt64.ofNat slabHeaderSize).toNat / 4096 * 4096

/-- `size` bytes from `ptr` on lie in the page of its header. -/
def InHeaderPage (size : UInt32) (ptr : UInt64) : Prop :=
  headerPage ptr ≤ ptr.toNat ∧ ptr.toNat + size.toNat ≤ headerPage ptr + 4096

/-- … and that page lies in `[heap_base, heap_limit)`. -/
structure AsRequested (s : State) (size : UInt32) (ptr : UInt64) : Prop where
  bytes : InHeaderPage size ptr
  base : s.heapBase.toNat ≤ headerPage ptr
  limit : headerPage ptr + 4096 ≤ s.heapLimit.toNat

variable {s s' : State} {l : History} {mayAnswer : Outcome → Prop} {mayFree : History → UInt64 → Prop}

/-! ## Blocks are behind headers on page boundaries -/

/-- The list stays among the slabs made, all of them on page boundaries; wherever `heap_top` is. -/
structure Paged (s : State) (l : History) : Prop where
  top : s.heapTop.toNat % 4096 = 0
  head : s.freeList = 0 ∨ s.freeList ∈ l.created
  next : ∀ h ∈ l.created, (s.headers h).next = 0 ∨ (s.headers h).next ∈ l.created
  aligned : ∀ h ∈ l.created, h.toNat % 4096 = 0
  block : ∀ r ∈ l.requests, r.2 ≠ 0 → ∃ h ∈ l.created, r.2 = blockOf h

/-- A scan that starts among the slabs stays among them. -/
theorem firstFit_mem_of_closed {headers : UInt64 → SlabHeader} {slabs : List UInt64} {size : UInt32}
    (hnext : ∀ h ∈ slabs, (headers h).next = 0 ∨ (headers h).next ∈ slabs) {slab : UInt64} :
    ∀ {steps : Nat} {p : UInt64}, p = 0 ∨ p ∈ slabs → firstFit headers size steps p = some slab →
      slab ≠ 0 → slab ∈ slabs := by
  intro steps
  induction steps with
  | zero =>
    intro p hp hfit hslab
    by_cases h0 : p = 0
    · rw [h0, firstFit_zero] at hfit
      exact absurd (Option.some.inj hfit).symm hslab
    · rw [firstFit, if_neg h0] at hfit
      cases hfit
  | succ steps ih =>
    intro p hp hfit hslab
    by_cases h0 : p = 0
    · rw [h0, firstFit_zero] at hfit
      exact absurd (Option.some.inj hfit).symm hslab
    · have hmem : p ∈ slabs := hp.resolve_left h0
      rw [firstFit, if_neg h0] at hfit
      split at hfit
      · obtain rfl := Option.some.inj hfit
        exact hmem
      · exact ih (hnext p hmem) hfit hslab

theorem paged_heapInit (s : State) : Paged (heapInit s) History.none where
  top := by
    have hbase : (0xFFFF8000FFC00000 : UInt64).toNat = 0xFFFF8000FFC00000 := rfl
    show (0xFFFF8000FFC00000 : UInt64).toNat % 4096 = 0
    rw [hbase]
  head := Or.inl rfl
  next _ hh := absurd hh List.not_mem_nil
  aligned _ hh := absurd hh List.not_mem_nil
  block _ hr := absurd hr List.not_mem_nil

/-- Flags are no part of it, and one more request may be recorded. -/
theorem Paged.request {size : UInt32} {ptr : UInt64} (hp : Paged s l) (slab : UInt64) (v : UInt8)
    (hptr : ptr ≠ 0 → ∃ h ∈ l.created, ptr = blockOf h) (live : List UInt64) :
    Paged (s.setFree slab v) ⟨(size, ptr) :: l.requests, l.created, live⟩ where
  top := hp.top
  head := hp.head
  next h hh := by
    rw [setFree_next]
    exact hp.next h hh
  aligned := hp.aligned
  block r hr hne := by
    rcases List.mem_cons.mp hr with rfl | hr
    · exact hptr hne
    · exact hp.block r hr hne

theorem Paged.grow (hp : Paged s l) (vmm : Vmm.State) :
    Paged (s.grow vmm) { l with created := (s.heapTop + hhdmBase) :: l.created } where
  top := by
    have htop := hp.top
    have h4096 : (4096 : UInt64).toNat = 4096 := rfl
    show (s.heapTop + 4096).toNat % 4096 = 0
    rw [UInt64.toNat_add, h4096]
    omega
  head := Or.inr List.mem_cons_self
  next h hh := by
    -- The new header points at the old head; every other header is as it was.
    by_cases heq : h = s.heapTop + hhdmBase
    · rw [heq, grow_headers_self]
      exact hp.head.imp_right (List.mem_cons_of_mem _)
    · rw [grow_headers_of_ne vmm heq]
      exact (hp.next h ((List.mem_cons.mp hh).resolve_left heq)).imp_right (List.mem_cons_of_mem _)
  aligned h hh := by
    rcases List.mem_cons.mp hh with rfl | hh
    · have htop := hp.top
      have hhdm : hhdmBase.toNat = 0xFFFF800000000000 := rfl
      rw [UInt64.toNat_add, hhdm]
      omega
    · exact hp.aligned h hh
  block r hr hne := by
    obtain ⟨h, hh, heq⟩ := hp.block r hr hne
    exact ⟨h, List.mem_cons_of_mem _ hh, heq⟩

theorem kfree_cases (ptr : UInt64) (s : State) : kfree ptr s = s ∨ ∃ h, kfree ptr s = s.setFree h 1 := by
  rw [kfree]
  split
  · exact Or.inl rfl
  · dsimp only
    split
    · exact Or.inl rfl
    · exact Or.inr ⟨_, rfl⟩

theorem SlabRun.paged (h : SlabRun mayAnswer mayFree s l) : Paged s l := by
  induction h with
  | start s => exact paged_heapInit s
  | @kmalloc s s' l ptr calls h o ho steps size hcall ih =>
    cases kmallocWith_cases hcall with
    | empty hsize =>
      rw [History.request_null]
      exact ⟨ih.top, ih.head, ih.next, ih.aligned, (ih.request 0 0 (fun h => absurd rfl h) l.live).block⟩
    | reused hsize hfit hslab =>
      have hmem := firstFit_mem_of_closed ih.next ih.head hfit hslab
      exact ih.request _ 0 (fun _ => ⟨_, hmem, rfl⟩) _
    | refused hsize houtcome hheld hmade =>
      rw [History.request_null, hmade]
      exact ⟨ih.top, ih.head, ih.next, ih.aligned, (ih.request 0 0 (fun h => absurd rfl h) l.live).block⟩
    | null hsize hslab hmade =>
      rw [History.request_null, hmade]
      have hgrown := ih.grow o.vmm
      exact ⟨hgrown.top, hgrown.head, hgrown.next, hgrown.aligned,
        (hgrown.request 0 0 (fun h => absurd rfl h) l.live).block⟩
    | fresh hsize hfit hslab hmade =>
      rw [History.request, hmade]
      exact (ih.grow o.vmm).request _ 0 (fun _ => ⟨_, List.mem_cons_self, rfl⟩) _
  | kfree h ptr hmay ih =>
    rcases kfree_cases ptr _ with heq | ⟨slab, heq⟩
    · rw [heq]
      exact ⟨ih.top, ih.head, ih.next, ih.aligned, ih.block⟩
    · rw [heq]
      refine ⟨ih.top, ih.head, fun h hh => ?_, ih.aligned, ih.block⟩
      rw [setFree_next]
      exact ih.next h hh

/-- Behind a header on a page boundary there is room for 4072 bytes. -/
theorem inHeaderPage_blockOf_iff {h : UInt64} (size : UInt32) (hh : h.toNat % 4096 = 0) :
    InHeaderPage size (blockOf h) ↔ size.toNat ≤ 4072 := by
  have hlt := h.toNat_lt
  have hheader : blockOf h - UInt64.ofNat slabHeaderSize = h := by simp [blockOf]
  have h24 : (UInt64.ofNat slabHeaderSize).toNat = 24 := rfl
  have hblock : (blockOf h).toNat = h.toNat + 24 := by
    rw [blockOf, UInt64.toNat_add, h24]
    omega
  rw [InHeaderPage, headerPage, hheader, hblock]
  omega

/-! ## The first block of a run -/

/-- Until a request for at least one byte was made nothing was; the first such request got the slab at the
start of the heap. -/
structure FirstBlock (s : State) (l : History) : Prop where
  limit : s.heapLimit = 0xFFFF8000FFFF0000
  null : ∀ r ∈ l.requests, r.1 = 0 → r.2 = 0
  first : (Barren s ∧ ∀ r ∈ l.requests, r.1 = 0) ∨ ∃ r ∈ l.requests, r.2 = blockOf (slabAddress 0)

theorem Barren.heapTop_add (h : Barren s) : s.heapTop + hhdmBase = slabAddress 0 := by
  rw [h.heapTop]
  rfl

/-- A request for at least one byte in a heap without slabs makes the first one. -/
theorem Barren.answer {o : Outcome} {steps : Nat} {size : UInt32} {ptr : UInt64} {calls : List Call}
    (h : Barren s) (ho : succeeds o) (hsize : size ≠ 0) (ha : Answer o steps size s ptr calls s') :
    ptr = blockOf (slabAddress 0) := by
  cases ha with
  | empty h0 => exact absurd h0 hsize
  | reused _ hfit hslab =>
    rw [h.freeList, firstFit_zero] at hfit
    exact absurd (Option.some.inj hfit).symm hslab
  | refused _ houtcome =>
    rcases houtcome with hpage | hresult
    · exact absurd hpage ho.1
    · exact absurd ho.2 hresult
  | null _ hslab =>
    rw [h.heapTop_add] at hslab
    exact absurd hslab (slabAddress_ne_zero (by decide))
  | fresh => rw [h.heapTop_add]

theorem Answer.heapLimit {o : Outcome} {steps : Nat} {size : UInt32} {ptr : UInt64} {calls : List Call}
    (ha : Answer o steps size s ptr calls s') : s'.heapLimit = s.heapLimit := by
  cases ha with
  | empty => rfl
  | reused => rfl
  | refused => rfl
  | null => rfl
  | fresh => rfl

theorem SlabRun.firstBlock (h : SlabRun succeeds mayFree s l) : FirstBlock s l := by
  induction h with
  | start s =>
    exact ⟨rfl, fun _ hr => absurd hr List.not_mem_nil,
      Or.inl ⟨barren_heapInit s, fun _ hr => absurd hr List.not_mem_nil⟩⟩
  | @kmalloc s s' l ptr calls h o ho steps size hcall ih =>
    have ha := kmallocWith_cases hcall
    refine ⟨ha.heapLimit.trans ih.limit, fun r hr hzero => ?_, ?_⟩
    · rcases List.mem_cons.mp hr with rfl | hr
      · obtain rfl : size = 0 := hzero
        rw [kmallocWith, if_pos rfl] at hcall
        exact (congrArg Prod.fst (Option.some.inj hcall)).symm
      · exact ih.null r hr hzero
    · rcases ih.first with ⟨hbarren, hzero⟩ | ⟨r, hr, hfirst⟩
      · by_cases hsize : size = 0
        · -- Nothing happens on a request for no bytes.
          rw [kmallocWith, if_pos hsize] at hcall
          obtain ⟨-, hrest⟩ := Prod.mk.inj (Option.some.inj hcall)
          obtain ⟨-, rfl⟩ := Prod.mk.inj hrest
          refine Or.inl ⟨hbarren, fun r hr => ?_⟩
          rcases List.mem_cons.mp hr with rfl | hr
          · exact hsize
          · exact hzero r hr
        · exact Or.inr ⟨(size, ptr), List.mem_cons_self, hbarren.answer ho hsize ha⟩
      · exact Or.inr ⟨r, List.mem_cons_of_mem _ hr, hfirst⟩
  | kfree h ptr hmay ih =>
    rcases kfree_cases ptr _ with heq | ⟨slab, heq⟩
    · rw [heq]
      exact ⟨ih.limit, ih.null, ih.first⟩
    · rw [heq]
      refine ⟨ih.limit, ih.null, ih.first.imp_left fun hbarren => ⟨?_, hbarren.2⟩⟩
      exact ⟨hbarren.1.heapTop, hbarren.1.heapLimit, hbarren.1.freeList⟩

theorem headerPage_first : headerPage (blockOf (slabAddress 0)) = 0xFFFF0000FFC00000 := rfl

/-- **Blocks as requested.** With an allocator and a mapper that always succeed, in every run of `kmalloc` and
`kfree`: all blocks are as requested if and only if no request is for a byte at all, since the first such
request gets a block below `heap_base`. A block has the bytes requested if and only if they are at most 4072. -/
theorem blocks_as_requested_iff (s : State) (l : History) (h : SlabRun succeeds anyPointer s l) :
    ((∀ r ∈ l.requests, r.2 ≠ 0 → AsRequested s r.1 r.2) ↔ ∀ r ∈ l.requests, r.1 = 0) ∧
    ∀ r ∈ l.requests, r.2 ≠ 0 → (InHeaderPage r.1 r.2 ↔ r.1.toNat ≤ 4072) := by
  have hfirst := h.firstBlock
  refine ⟨⟨fun hall => ?_, fun hzero r hr hne => absurd (hfirst.null r hr (hzero r hr)) hne⟩, ?_⟩
  · rcases hfirst.first with ⟨-, hzero⟩ | ⟨r, hr, heq⟩
    · exact hzero
    · -- The page of the first block is below the base of the heap.
      have hroom : Room 0 := by decide
      have hblock := hall r hr (by rw [heq]; exact MinOS.Heap.blockOf_ne_zero hroom)
      have hbase := hblock.base
      have hvalue : (0xFFFF8000FFC00000 : UInt64).toNat = 0xFFFF8000FFC00000 := rfl
      rw [heq, headerPage_first, h.heapBase, hvalue] at hbase
      omega
  · intro r hr hne
    have hpaged := h.paged
    obtain ⟨slab, hslab, heq⟩ := hpaged.block r hr hne
    rw [heq]
    exact inHeaderPage_blockOf_iff r.1 (hpaged.aligned slab hslab)

theorem blocks_as_requested_oneBlock :
    ∃ s l, SlabRun succeeds anyPointer s l ∧ ¬ ∀ r ∈ l.requests, r.2 ≠ 0 → AsRequested s r.1 r.2 := by
  have hrun : SlabRun succeeds anyPointer _ _ := slabRun_oneBlock ⟨by decide, rfl⟩
  refine ⟨_, _, hrun, fun hall => ?_⟩
  have hzero := (blocks_as_requested_iff _ _ hrun).1.mp hall _ List.mem_cons_self
  exact absurd hzero (by decide)

/-- The first request for 16 bytes: the block lies at 0xFFFF0000FFC00018, outside of the window. -/
theorem first_block_outside :
    ∃ s l, SlabRun succeeds anyPointer s l ∧ ((16 : UInt32), (0xFFFF0000FFC00018 : UInt64)) ∈ l.requests ∧
      ¬ AsRequested s 16 0xFFFF0000FFC00018 := by
  refine ⟨_, _, slabRun_oneBlock ⟨by decide, rfl⟩, List.mem_cons_self, fun h => ?_⟩
  exact absurd h.base (by decide)

end MinOS.Heap
