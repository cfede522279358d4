/-
# MinOS.Heap.Slabs — live heap blocks never share storage.

What `pmm_alloc_frame` and `vmm_map_user_page` answer is a parameter here, one `Outcome` for each call of
`slab_alloc`, so the results hold for any mix of success and failure; `kmalloc_eq_with` says that the
`kmalloc` of `MinOS.Heap` is an instance. The calls made below the heap are recorded in their order.

Slabs are linked at the head of `free_list` and never unlinked: whatever a run did, the list is the slabs it
mapped, newest first, at the addresses the bump pointer went through. A slab's flag is 0 from the request
that returned it until its pointer is freed.
-/
import Mathlib.Algebra.Group.Nat.Defs
import MinOS.Heap
import MinOS.Lib.Chain
import MinOS.Pmm.FirstFit

namespace MinOS.Heap

open MinOS.Pmm (pmmAllocFrame pmmFreeFrame)
open MinOS.Vmm (hhdmBase vmmMapUserPage)
open Machine (bind_eq_ok_iff)
open LinkedList (Chain)

/-! ## The calls below the heap as parameters -/

/-- What the layers below answer to one `slab_alloc`: the frame, 0 for none, the result of the mapping, and
what they are afterwards -/
structure Outcome where
  page : UInt64
  result : Int
  vmm : Vmm.State

/-- A call made below the heap -/
inductive Call
  | allocFrame (page : UInt64)
  | mapUserPage (page virtual : UInt64) (result : Int)
  | freeFrame (page : UInt64)
  deriving DecidableEq, Repr

/-- `slab_alloc` -/
def slabAllocWith (o : Outcome) (s : State) : UInt64 × List Call × State :=
  if o.page = 0 then (0, [.allocFrame 0], { s with vmm := o.vmm })
  else if o.result ≠ 0 then
    (0, [.allocFrame o.page, .mapUserPage o.page s.heapTop o.result, .freeFrame o.page],
      { s with vmm := o.vmm })
  else
    let h := s.heapTop + hhdmBase
    let header : SlabHeader :=
      { magic := heapMagic, size := UInt32.ofNat (4096 - slabHeaderSize), free := 1, next := s.freeList }
    (h, [.allocFrame o.page, .mapUserPage o.page s.heapTop o.result],
      { s.setHeader h header with vmm := o.vmm, freeList := h, heapTop := s.heapTop + 4096 })

/-- `kmalloc` with at most `steps` steps along the free list -/
def kmallocWith (o : Outcome) (steps : Nat) (size : UInt32) (s : State) :
    Option (UInt64 × List Call × State) :=
  if size = 0 then some (0, [], s)
  else
    let size := (size + 15) &&& ~~~15
    match firstFit s.headers size steps s.freeList with
    | none => none
    | some h =>
      if h ≠ 0 then some (h + UInt64.ofNat slabHeaderSize, [], s.setFree h 0)
      else
        match slabAllocWith o s with
        | (h, calls, s) =>
          if h = 0 then some (0, calls, s)
          else some (h + UInt64.ofNat slabHeaderSize, calls, s.setFree h 0)

variable {s s' : State} {o : Outcome} {ptr : UInt64} {size : UInt32} {steps : Nat} {calls : List Call}

/-- The `slab_alloc` over the real allocator and mapper has an outcome. -/
theorem slabAlloc_eq_with (h : slabAlloc s = .ok (ptr, s')) :
    ∃ o calls, slabAllocWith o s = (ptr, calls, s') := by
  obtain ⟨⟨page, q⟩, -, hrest⟩ := bind_eq_ok_iff.mp h
  change (if page = 0 then _ else _) = _ at hrest
  by_cases hpage : page = 0
  · rw [if_pos hpage] at hrest
    cases hrest
    exact ⟨⟨0, 0, _⟩, _, if_pos rfl⟩
  · rw [if_neg hpage] at hrest
    obtain ⟨⟨r, m⟩, -, hrest⟩ := bind_eq_ok_iff.mp hrest
    change (if r ≠ 0 then _ else _) = _ at hrest
    by_cases hr : r ≠ 0
    · rw [if_pos hr] at hrest
      obtain ⟨q', -, hlast⟩ := bind_eq_ok_iff.mp hrest
      cases hlast
      exact ⟨⟨page, r, _⟩, _, (if_neg hpage).trans (if_pos hr)⟩
    · rw [if_neg hr] at hrest
      refine ⟨⟨page, r, m⟩, [.allocFrame page, .mapUserPage page s.heapTop r], ?_⟩
      refine ((if_neg hpage).trans (if_neg hr)).trans ?_
      exact congrArg (fun result => (result.1, _, result.2)) (Except.ok.inj hrest)

/-- **The instance.** Every `kmalloc` over the real allocator and mapper that returned is one of these. -/
theorem kmalloc_eq_with (h : kmalloc steps size s = .ok (ptr, s')) :
    ∃ o calls, kmallocWith o steps size s = some (ptr, calls, s') := by
  rw [kmalloc] at h
  by_cases hsize : size = 0
  · rw [if_pos hsize] at h
    cases h
    exact ⟨⟨0, 0, s.vmm⟩, [], if_pos hsize⟩
  · rw [if_neg hsize] at h
    simp only [kmallocWith, if_neg hsize]
    cases hfit : firstFit s.headers ((size + 15) &&& ~~~15) steps s.freeList with
    | none => simp [hfit] at h
    | some slab =>
      simp only [hfit] at h ⊢
      by_cases hslab : slab ≠ 0
      · rw [if_pos hslab] at h
        cases h
        exact ⟨⟨0, 0, s.vmm⟩, [], if_pos hslab⟩
      · rw [if_neg hslab] at h
        simp only [if_neg hslab]
        cases halloc : slabAlloc s with
        | error f => simp [halloc] at h
        | ok r =>
          obtain ⟨slab', t⟩ := r
          obtain ⟨o, calls, ho⟩ := slabAlloc_eq_with halloc
          refine ⟨o, calls, ?_⟩
          rw [halloc] at h
          simp only [ho]
          dsimp only at h
          by_cases hnull : slab' = 0
          · rw [if_pos hnull] at h ⊢
            cases h
            rfl
          · rw [if_neg hnull] at h ⊢
            cases h
            rfl

/-! ## What one request does -/

/-- The frames taken and not given back after one more call -/
def Call.held (frames : List UInt64) : Call → List UInt64
  | .allocFrame page => if page = 0 then frames else page :: frames
  | .mapUserPage _ _ _ => frames
  | .freeFrame page => frames.erase page

/-- The frames that `calls` took and did not give back -/
def heldFrames (calls : List Call) : List UInt64 := calls.foldl Call.held []

/-- The slab a call makes: a page mapped at `heap_top` is addressed through the direct map. -/
def Call.slab : Call → Option UInt64
  | .mapUserPage _ virtual result => if result = 0 then some (virtual + hhdmBase) else none
  | _ => none

/-- The slabs that `calls` made -/
def slabsMade (calls : List Call) : List UInt64 := calls.filterMap Call.slab

/-- The header `slab_alloc` writes -/
def freshHeader (next : UInt64) : SlabHeader :=
  { magic := heapMagic, size := UInt32.ofNat (4096 - slabHeaderSize), free := 1, next := next }

/-- The state after a slab was linked in -/
def State.grow (s : State) (vmm : Vmm.State) : State :=
  { s.setHeader (s.heapTop + hhdmBase) (freshHeader s.freeList) with
    vmm := vmm
    freeList := s.heapTop + hhdmBase
    heapTop := s.heapTop + 4096 }

/-- `h + 1` -/
def blockOf (slab : UInt64) : UInt64 := slab + UInt64.ofNat slabHeaderSize

/-- What a request can lead to -/
inductive Answer (o : Outcome) (steps : Nat) (size : UInt32) (s : State) :
    UInt64 → List Call → State → Prop
  | empty (hsize : size = 0) : Answer o steps size s 0 [] s
  | reused {slab : UInt64} (hsize : size ≠ 0)
      (hfit : firstFit s.headers ((size + 15) &&& ~~~15) steps s.freeList = some slab) (hslab : slab ≠ 0) :
      Answer o steps size s (blockOf slab) [] (s.setFree slab 0)
  | refused {calls : List Call} (hsize : size ≠ 0) (houtcome : o.page = 0 ∨ o.result ≠ 0)
      (hheld : heldFrames calls = []) (hmade : slabsMade calls = []) :
      Answer o steps size s 0 calls { s with vmm := o.vmm }
  | null {calls : List Call} (hsize : size ≠ 0) (hslab : s.heapTop + hhdmBase = 0)
      (hmade : slabsMade calls = [s.heapTop + hhdmBase]) : Answer o steps size s 0 calls (s.grow o.vmm)
  | fresh {calls : List Call} (hsize : size ≠ 0)
      (hfit : firstFit s.headers ((size + 15) &&& ~~~15) steps s.freeList = some 0)
      (hslab : s.heapTop + hhdmBase ≠ 0) (hmade : slabsMade calls = [s.heapTop + hhdmBase]) :
      Answer o steps size s (blockOf (s.heapTop + hhdmBase)) calls
        ((s.grow o.vmm).setFree (s.heapTop + hhdmBase) 0)

/-- `slab_alloc`, read off -/
theorem slabAllocWith_cases (o : Outcome) (s : State) :
    ((o.page = 0 ∨ o.result ≠ 0) ∧ ∃ calls, slabAllocWith o s = (0, calls, { s with vmm := o.vmm }) ∧
      heldFrames calls = [] ∧ slabsMade calls = []) ∨
    (¬ (o.page = 0 ∨ o.result ≠ 0) ∧ ∃ calls,
      slabAllocWith o s = (s.heapTop + hhdmBase, calls, s.grow o.vmm) ∧
      slabsMade calls = [s.heapTop + hhdmBase]) := by
  by_cases hpage : o.page = 0
  · exact Or.inl ⟨Or.inl hpage, _, if_pos hpage, rfl, rfl⟩
  · by_cases hresult : o.result ≠ 0
    · refine Or.inl ⟨Or.inr hresult, _, (if_neg hpage).trans (if_pos hresult), ?_, ?_⟩
      · simp [heldFrames, Call.held, hpage]
      · simp [slabsMade, Call.slab, hresult]
    · refine Or.inr ⟨?_, _, (if_neg hpage).trans (if_neg hresult), ?_⟩
      · rintro (h | h)
        · exact hpage h
        · exact hresult h
      · rw [slabsMade, not_not.mp hresult]
        rfl

/-- **Inversion.** A request that returned did one of the things an `Answer` says. -/
theorem kmallocWith_cases (h : kmallocWith o steps size s = some (ptr, calls, s')) :
    Answer o steps size s ptr calls s' := by
  by_cases hsize : size = 0
  · rw [kmallocWith, if_pos hsize] at h
    cases h
    exact .empty hsize
  · simp only [kmallocWith, if_neg hsize] at h
    cases hfit : firstFit s.headers ((size + 15) &&& ~~~15) steps s.freeList with
    | none => simp [hfit] at h
    | some slab =>
      simp only [hfit] at h
      by_cases hslab : slab = 0
      · rw [if_neg (not_not_intro hslab)] at h
        subst hslab
        rcases slabAllocWith_cases o s with ⟨houtcome, made, halloc, hheld, hmade⟩ | ⟨-, made, halloc, hmade⟩
        · simp only [halloc, if_true] at h
          cases h
          exact .refused hsize houtcome hheld hmade
        · simp only [halloc] at h
          by_cases hnull : s.heapTop + hhdmBase = 0
          · rw [if_pos hnull] at h
            cases h
            exact .null hsize hnull hmade
          · rw [if_neg hnull] at h
            obtain ⟨rfl, hrest⟩ := Prod.mk.inj (Option.some.inj h)
            obtain ⟨rfl, rfl⟩ := Prod.mk.inj hrest
            exact .fresh hsize hfit hnull hmade
      · rw [if_pos hslab] at h
        cases h
        exact .reused hsize hfit hslab

/-- A request returns if its scan does. -/
theorem kmallocWith_runs {slab : UInt64}
    (hfit : firstFit s.headers ((size + 15) &&& ~~~15) steps s.freeList = some slab) (o : Outcome) :
    ∃ r, kmallocWith o steps size s = some r := by
  by_cases hsize : size = 0
  · exact ⟨_, if_pos hsize⟩
  · simp only [kmallocWith, if_neg hsize, hfit]
    by_cases hslab : slab ≠ 0
    · exact ⟨_, if_pos hslab⟩
    · rw [if_neg hslab]
      by_cases hnull : (slabAllocWith o s).1 = 0
      · exact ⟨_, if_pos hnull⟩
      · exact ⟨_, if_neg hnull⟩

/-! ## Runs -/

/-- What the callers have seen: the requests with their answers, the slabs made, the pointers that were
returned and not freed; the newest first -/
structure History where
  requests : List (UInt32 × UInt64)
  created : List UInt64
  live : List UInt64

def History.none : History := ⟨[], [], []⟩

/-- A request for `size` bytes returned `ptr` and made `calls`. -/
def History.request (l : History) (size : UInt32) (ptr : UInt64) (calls : List Call) : History where
  requests := (size, ptr) :: l.requests
  created := slabsMade calls ++ l.created
  live := if ptr = 0 then l.live else ptr :: l.live

/-- `ptr` was freed. -/
def History.release (l : History) (ptr : UInt64) : History := { l with live := l.live.erase ptr }

/-- The states that calls of `kmalloc` and `kfree` reach after `heap_init`, whatever memory held before -/
inductive SlabRun (mayAnswer : Outcome → Prop) (mayFree : History → UInt64 → Prop) :
    State → History → Prop
  | start (s : State) : SlabRun mayAnswer mayFree (heapInit s) History.none
  | kmalloc {s s' : State} {l : History} {ptr : UInt64} {calls : List Call}
      (h : SlabRun mayAnswer mayFree s l) (o : Outcome) (ho : mayAnswer o) (steps : Nat) (size : UInt32)
      (hcall : kmallocWith o steps size s = some (ptr, calls, s')) :
      SlabRun mayAnswer mayFree s' (l.request size ptr calls)
  | kfree {s : State} {l : History} (h : SlabRun mayAnswer mayFree s l) (ptr : UInt64)
      (hmay : mayFree l ptr) : SlabRun mayAnswer mayFree (kfree ptr s) (l.release ptr)

/-- Any frame or none, mapped or not -/
def anyOutcome : Outcome → Prop := fun _ => True

/-- Only pointers that were returned and not freed are freed. -/
def livePointer (l : History) (ptr : UInt64) : Prop := ptr ∈ l.live

/-! ## Where the slabs lie -/

/-- The header of the slab that was made when `heap_top` had moved `k` pages -/
def slabAddress (k : Nat) : UInt64 := 0xFFFF8000FFC00000 + UInt64.ofNat (4096 * k) + hhdmBase

/-- The first `n` slabs, newest first -/
def slabsUpTo : Nat → List UInt64
  | 0 => []
  | n + 1 => slabAddress n :: slabsUpTo n

theorem mem_slabsUpTo {h : UInt64} : ∀ {n : Nat}, h ∈ slabsUpTo n ↔ ∃ k < n, h = slabAddress k := by
  intro n
  induction n with
  | zero => simp [slabsUpTo]
  | succ n ih =>
    rw [slabsUpTo, List.mem_cons, ih]
    constructor
    · rintro (rfl | ⟨k, hk, rfl⟩)
      · exact ⟨n, by omega, rfl⟩
      · exact ⟨k, by omega, rfl⟩
    · rintro ⟨k, hk, rfl⟩
      rcases Nat.eq_or_lt_of_le (Nat.le_of_lt_succ hk) with rfl | hk
      · exact Or.inl rfl
      · exact Or.inr ⟨k, hk, rfl⟩

/-- `heap_top` stays below 2^64 when it has moved `n` pages. -/
def Room (n : Nat) : Prop := 0xFFFF8000FFC00000 + 4096 * n < 2 ^ 64

instance (n : Nat) : Decidable (Room n) := inferInstanceAs (Decidable (_ < _))

/-- The base of the direct map is added to an address that contains it already: headers lie below it. -/
theorem toNat_slabAddress {k : Nat} (hroom : Room k) :
    (slabAddress k).toNat = 0xFFFF0000FFC00000 + 4096 * k := by
  have hlt : 0xFFFF8000FFC00000 + 4096 * k < 2 ^ 64 := hroom
  have hbase : (0xFFFF8000FFC00000 : UInt64).toNat = 0xFFFF8000FFC00000 := rfl
  have hhdm : hhdmBase.toNat = 0xFFFF800000000000 := rfl
  rw [slabAddress, UInt64.toNat_add, UInt64.toNat_add, UInt64.toNat_ofNat', hbase, hhdm]
  omega

theorem Room.mono {m n : Nat} (h : Room n) (hle : m ≤ n) : Room m := by
  unfold Room at *
  omega

theorem toNat_blockOf {k : Nat} (hroom : Room k) :
    (blockOf (slabAddress k)).toNat = 0xFFFF0000FFC00000 + 4096 * k + 24 := by
  have hlt : 0xFFFF8000FFC00000 + 4096 * k < 2 ^ 64 := hroom
  have hheader : (UInt64.ofNat slabHeaderSize).toNat = 24 := rfl
  rw [blockOf, UInt64.toNat_add, toNat_slabAddress hroom, hheader]
  omega

theorem slabAddress_ne_zero {k : Nat} (hroom : Room k) : slabAddress k ≠ 0 := by
  intro h
  have := toNat_slabAddress hroom
  rw [h, UInt64.toNat_zero] at this
  omega

theorem blockOf_ne_zero {k : Nat} (hroom : Room k) : blockOf (slabAddress k) ≠ 0 := by
  intro h
  have := toNat_blockOf hroom
  rw [h, UInt64.toNat_zero] at this
  omega

theorem blockOf_inj {h h' : UInt64} : blockOf h = blockOf h' ↔ h = h' := by
  simp [blockOf]

theorem slabAddress_notMem {n : Nat} (hroom : Room n) : slabAddress n ∉ slabsUpTo n := by
  rw [mem_slabsUpTo]
  rintro ⟨k, hk, heq⟩
  have hnat := congrArg UInt64.toNat heq
  rw [toNat_slabAddress hroom, toNat_slabAddress (hroom.mono (by omega))] at hnat
  omega

/-! ## The scan of the list -/

variable {headers : UInt64 → SlabHeader} {p : UInt64} {nodes : List UInt64}

/-- A slab found is on the list and free. -/
theorem firstFit_mem {slab : UInt64} (hchain : Chain (fun h => (headers h).next) 0 p nodes)
    (hfit : firstFit headers size steps p = some slab) (hslab : slab ≠ 0) :
    slab ∈ nodes ∧ (headers slab).free ≠ 0 := by
  induction nodes generalizing p steps with
  | nil =>
    obtain rfl : p = 0 := hchain
    rw [firstFit_zero] at hfit
    exact absurd (Option.some.inj hfit).symm hslab
  | cons x nodes ih =>
    obtain ⟨rfl, hne, hrest⟩ := hchain
    cases steps with
    | zero =>
      rw [firstFit, if_neg hne] at hfit
      cases hfit
    | succ steps =>
      rw [firstFit, if_neg hne] at hfit
      split at hfit
      · rename_i hgood
        obtain rfl := Option.some.inj hfit
        exact ⟨List.mem_cons_self, hgood.1⟩
      · obtain ⟨hmem, hfree⟩ := ih hrest hfit
        exact ⟨List.mem_cons_of_mem _ hmem, hfree⟩

/-- As many steps as there are slabs suffice. -/
theorem firstFit_runs (hchain : Chain (fun h => (headers h).next) 0 p nodes)
    (hsteps : nodes.length ≤ steps) : ∃ slab, firstFit headers size steps p = some slab := by
  induction nodes generalizing p steps with
  | nil =>
    obtain rfl : p = 0 := hchain
    exact ⟨0, firstFit_zero headers size steps⟩
  | cons x nodes ih =>
    obtain ⟨rfl, hne, hrest⟩ := hchain
    cases steps with
    | zero => simp at hsteps
    | succ steps =>
      rw [firstFit, if_neg hne]
      split
      · exact ⟨p, rfl⟩
      · exact ih hrest (by simpa using hsteps)

/-! ## What every run keeps -/

@[simp] theorem setFree_freeList (h : UInt64) (v : UInt8) : (s.setFree h v).freeList = s.freeList := rfl

@[simp] theorem setFree_heapTop (h : UInt64) (v : UInt8) : (s.setFree h v).heapTop = s.heapTop := rfl

@[simp] theorem setFree_heapBase (h : UInt64) (v : UInt8) : (s.setFree h v).heapBase = s.heapBase := rfl

@[simp] theorem setFree_free_self (h : UInt64) (v : UInt8) : ((s.setFree h v).headers h).free = v := by
  simp [State.setFree, State.setHeader]

theorem setFree_headers_of_ne {h x : UInt64} (v : UInt8) (hne : x ≠ h) :
    (s.setFree h v).headers x = s.headers x := by
  simp [State.setFree, State.setHeader, hne]

@[simp] theorem setFree_next (h x : UInt64) (v : UInt8) :
    ((s.setFree h v).headers x).next = (s.headers x).next := by
  by_cases hx : x = h
  · simp [State.setFree, State.setHeader, hx]
  · rw [setFree_headers_of_ne v hx]

@[simp] theorem setFree_magic (h x : UInt64) (v : UInt8) :
    ((s.setFree h v).headers x).magic = (s.headers x).magic := by
  by_cases hx : x = h
  · simp [State.setFree, State.setHeader, hx]
  · rw [setFree_headers_of_ne v hx]

theorem grow_headers (s : State) (vmm : Vmm.State) : (s.grow vmm).headers =
    Function.update s.headers (s.heapTop + hhdmBase) (freshHeader s.freeList) := rfl

theorem grow_headers_self (s : State) (vmm : Vmm.State) :
    (s.grow vmm).headers (s.heapTop + hhdmBase) = freshHeader s.freeList := by
  rw [grow_headers, Function.update_self]

theorem grow_headers_of_ne {x : UInt64} (vmm : Vmm.State) (hne : x ≠ s.heapTop + hhdmBase) :
    (s.grow vmm).headers x = s.headers x := by
  rw [grow_headers, Function.update_of_ne hne]

/-- The list is the slabs made, at the addresses `heap_top` went through; the live pointers are those of the
slabs whose flag is 0. -/
structure Tidy (s : State) (l : History) : Prop where
  base : s.heapBase = 0xFFFF8000FFC00000
  top : s.heapTop = 0xFFFF8000FFC00000 + UInt64.ofNat (4096 * l.created.length)
  created : l.created = slabsUpTo l.created.length
  chain : Chain (fun h => (s.headers h).next) 0 s.freeList l.created
  magic : ∀ h ∈ l.created, (s.headers h).magic = heapMagic
  owned : ∀ ptr ∈ l.live, ∃ h ∈ l.created, ptr = blockOf h
  nodup : l.live.Nodup
  flag : ∀ h ∈ l.created, (s.headers h).free = 0 ↔ blockOf h ∈ l.live

variable {l : History}

theorem tidy_heapInit (s : State) : Tidy (heapInit s) History.none where
  base := rfl
  top := rfl
  created := rfl
  chain := rfl
  magic _ hh := absurd hh List.not_mem_nil
  owned _ hp := absurd hp List.not_mem_nil
  nodup := List.nodup_nil
  flag _ hh := absurd hh List.not_mem_nil

theorem Tidy.exists_index {h : UInt64} (ht : Tidy s l) (hh : h ∈ l.created) :
    ∃ k < l.created.length, h = slabAddress k := by
  rw [ht.created] at hh
  exact mem_slabsUpTo.mp hh

/-- The next slab is none of those there are. -/
theorem Tidy.heapTop_add (ht : Tidy s l) : s.heapTop + hhdmBase = slabAddress l.created.length := by
  rw [ht.top]
  rfl

theorem Tidy.slabAddress_notMem_created (ht : Tidy s l) (hroom : Room l.created.length) :
    slabAddress l.created.length ∉ l.created := by
  intro hin
  rw [ht.created] at hin
  exact slabAddress_notMem hroom (by simpa [← ht.created] using hin)

/-- The flag of one slab changes, and its pointer is live or not accordingly. -/
theorem Tidy.setFree {slab : UInt64} {v : UInt8} {live : List UInt64} (ht : Tidy s l)
    (hslab : slab ∈ l.created) (hnodup : live.Nodup)
    (howned : ∀ ptr ∈ live, ptr = blockOf slab ∨ ptr ∈ l.live)
    (hself : v = 0 ↔ blockOf slab ∈ live)
    (hothers : ∀ h, h ≠ slab → (blockOf h ∈ live ↔ blockOf h ∈ l.live)) :
    Tidy (s.setFree slab v) { l with live := live } where
  base := ht.base
  top := ht.top
  created := ht.created
  chain := ht.chain.congr fun x _ => setFree_next slab x v
  magic h hh := by
    rw [setFree_magic]
    exact ht.magic h hh
  owned ptr hp := by
    rcases howned ptr hp with rfl | hp
    · exact ⟨slab, hslab, rfl⟩
    · exact ht.owned ptr hp
  nodup := hnodup
  flag h hh := by
    by_cases heq : h = slab
    · rw [heq, setFree_free_self]
      exact hself
    · rw [setFree_headers_of_ne v heq]
      exact (ht.flag h hh).trans (hothers h heq).symm

/-- A free slab is handed out. -/
theorem Tidy.take {slab : UInt64} (ht : Tidy s l) (hslab : slab ∈ l.created)
    (hfree : blockOf slab ∉ l.live) :
    Tidy (s.setFree slab 0) { l with live := blockOf slab :: l.live } := by
  refine ht.setFree hslab (List.nodup_cons.mpr ⟨hfree, ht.nodup⟩) ?_ ?_ ?_
  · intro ptr hp
    exact List.mem_cons.mp hp
  · simp
  · intro h hne
    rw [List.mem_cons, blockOf_inj]
    simp [hne]

/-- A slab is linked in at the head, free. -/
theorem Tidy.grow (ht : Tidy s l) (vmm : Vmm.State) (hroom : Room l.created.length) :
    Tidy (s.grow vmm) { l with created := slabAddress l.created.length :: l.created } := by
  have hslab := ht.heapTop_add
  have hfresh := ht.slabAddress_notMem_created hroom
  have hother : ∀ x ∈ l.created, (s.grow vmm).headers x = s.headers x := by
    intro x hx
    refine grow_headers_of_ne vmm fun heq => hfresh ?_
    rwa [← hslab, ← heq]
  have hself : (s.grow vmm).headers (slabAddress l.created.length) = freshHeader s.freeList := by
    rw [← hslab]
    exact grow_headers_self s vmm
  refine ⟨ht.base, ?_, ?_, ?_, ?_, ?_, ht.nodup, ?_⟩
  · show s.heapTop + 4096 = _
    rw [ht.top, List.length_cons, Nat.mul_add, UInt64.ofNat_add, ← UInt64.add_assoc]
    rfl
  · rw [List.length_cons, slabsUpTo, ← ht.created]
  · refine ⟨hslab, slabAddress_ne_zero hroom, ?_⟩
    show Chain _ 0 ((s.grow vmm).headers (slabAddress l.created.length)).next l.created
    rw [hself]
    exact ht.chain.congr fun x hx => by rw [hother x hx]
  · intro h hh
    rcases List.mem_cons.mp hh with rfl | hh
    · rw [hself]
      rfl
    · rw [hother h hh]
      exact ht.magic h hh
  · intro ptr hp
    obtain ⟨h, hh, rfl⟩ := ht.owned ptr hp
    exact ⟨h, List.mem_cons_of_mem _ hh, rfl⟩
  · intro h hh
    rcases List.mem_cons.mp hh with rfl | hh
    · rw [hself]
      have hone : (1 : UInt8) ≠ 0 := by decide
      refine ⟨fun h1 => absurd h1 hone, fun hlive => ?_⟩
      -- A live pointer into the new slab would be one into an older slab.
      obtain ⟨h', hh', heq⟩ := ht.owned _ hlive
      exact absurd (blockOf_inj.mp heq ▸ hh') hfresh
    · rw [hother h hh]
      exact ht.flag h hh

/-- A pointer of a slab of the list is not NULL. -/
theorem Tidy.blockOf_ne_zero {h : UInt64} (ht : Tidy s l) (hroom : Room l.created.length)
    (hh : h ∈ l.created) : blockOf h ≠ 0 := by
  obtain ⟨k, hk, rfl⟩ := ht.exists_index hh
  exact MinOS.Heap.blockOf_ne_zero (hroom.mono hk.le)

theorem History.request_null (l : History) (size : UInt32) (calls : List Call) :
    l.request size 0 calls = ⟨(size, 0) :: l.requests, slabsMade calls ++ l.created, l.live⟩ := by
  simp [History.request]

theorem History.request_block (l : History) (size : UInt32) (calls : List Call) (hptr : ptr ≠ 0) :
    l.request size ptr calls = ⟨(size, ptr) :: l.requests, slabsMade calls ++ l.created, ptr :: l.live⟩ := by
  simp [History.request, hptr]

/-- Neither the requests recorded nor what lies below the heap is part of it. -/
theorem Tidy.congr {t : State} {m : History} (ht : Tidy s l) (hbase : t.heapBase = s.heapBase)
    (htop : t.heapTop = s.heapTop) (hlist : t.freeList = s.freeList) (hheaders : t.headers = s.headers)
    (hcreated : m.created = l.created) (hlive : m.live = l.live) : Tidy t m := by
  obtain ⟨base, top, created, chain, magic, owned, nodup, flag⟩ := ht
  refine ⟨?_, ?_, ?_, ?_, ?_, ?_, ?_, ?_⟩
  · rwa [hbase]
  · rwa [htop, hcreated]
  · rwa [hcreated]
  · rwa [hlist, hheaders, hcreated]
  · rwa [hheaders, hcreated]
  · rwa [hcreated, hlive]
  · rwa [hlive]
  · rwa [hheaders, hcreated, hlive]

/-- **Step.** A request keeps it, while there is room for the slab it may make. -/
theorem Tidy.kmalloc (ht : Tidy s l) (hcall : kmallocWith o steps size s = some (ptr, calls, s'))
    (hroom : Room (l.request size ptr calls).created.length) :
    Tidy s' (l.request size ptr calls) := by
  have hroom' : Room l.created.length := hroom.mono (by simp [History.request])
  cases kmallocWith_cases hcall with
  | empty hsize =>
    rw [History.request_null]
    exact ht.congr rfl rfl rfl rfl rfl rfl
  | reused hsize hfit hslab =>
    obtain ⟨hmem, hfree⟩ := firstFit_mem ht.chain hfit hslab
    rw [History.request_block _ _ _ (ht.blockOf_ne_zero hroom' hmem)]
    exact (ht.take hmem fun hlive => hfree ((ht.flag _ hmem).mpr hlive)).congr rfl rfl rfl rfl rfl rfl
  | refused hsize houtcome hheld hmade =>
    rw [History.request_null, hmade]
    exact ht.congr rfl rfl rfl rfl rfl rfl
  | null hsize hslab hmade =>
    rw [ht.heapTop_add] at hslab
    exact absurd hslab (slabAddress_ne_zero hroom')
  | fresh hsize hfit hslab hmade =>
    have hgrown := ht.grow o.vmm hroom'
    rw [ht.heapTop_add] at hmade ⊢
    -- The slab was linked in as a free one; now its flag is cleared.
    have hfree : blockOf (slabAddress l.created.length) ∉ l.live := by
      intro hlive
      obtain ⟨h, hh, heq⟩ := ht.owned _ hlive
      exact ht.slabAddress_notMem_created hroom' (blockOf_inj.mp heq ▸ hh)
    rw [History.request_block _ _ _ (MinOS.Heap.blockOf_ne_zero hroom'), hmade]
    exact (hgrown.take List.mem_cons_self hfree).congr rfl rfl rfl rfl rfl rfl

/-- **Step.** Freeing a live pointer keeps it. -/
theorem Tidy.kfree (ht : Tidy s l) (hroom : Room l.created.length) (hlive : ptr ∈ l.live) :
    Tidy (kfree ptr s) (l.release ptr) := by
  obtain ⟨h, hh, rfl⟩ := ht.owned ptr hlive
  have hheader : blockOf h - UInt64.ofNat slabHeaderSize = h := by simp [blockOf]
  have hkfree : MinOS.Heap.kfree (blockOf h) s = s.setFree h 1 := by
    rw [MinOS.Heap.kfree, if_neg (ht.blockOf_ne_zero hroom hh)]
    dsimp only
    rw [hheader, if_neg (not_not_intro (ht.magic h hh))]
  rw [hkfree]
  have hone : (1 : UInt8) ≠ 0 := by decide
  refine ht.setFree hh (ht.nodup.erase _) ?_ ?_ ?_
  · intro ptr hp
    exact Or.inr (List.mem_of_mem_erase hp)
  · simp [hone, ht.nodup.mem_erase_iff]
  · intro h' hne
    exact List.mem_erase_of_ne fun heq => hne (blockOf_inj.mp heq)

/-- **Run.** In every state reached while `heap_top` has not wrapped. -/
theorem SlabRun.tidy {mayAnswer : Outcome → Prop} (h : SlabRun mayAnswer livePointer s l)
    (hroom : Room l.created.length) : Tidy s l := by
  induction h with
  | start s => exact tidy_heapInit s
  | kmalloc h o ho steps size hcall ih =>
    exact (ih (hroom.mono (by simp [History.request]))).kmalloc hcall hroom
  | kfree h ptr hmay ih => exact (ih hroom).kfree hroom hmay

/-! ## Live blocks never share storage -/

/-- `ptr` lies in the page of the slab `h`. -/
def InSlab (ptr h : UInt64) : Prop := h.toNat ≤ ptr.toNat ∧ ptr.toNat < h.toNat + 4096

/-- The pages of two slabs have no byte in common. -/
def PagesApart (h h' : UInt64) : Prop := h.toNat + 4096 ≤ h'.toNat ∨ h'.toNat + 4096 ≤ h.toNat

/-- What the callers rely on -/
structure Exclusive (s : State) (l : History) : Prop where
  /-- following `next` from `free_list` visits the slabs made and ends -/
  chain : Chain (fun h => (s.headers h).next) 0 s.freeList l.created
  /-- each of them once -/
  once : l.created.Nodup
  magic : ∀ h ∈ l.created, (s.headers h).magic = heapMagic
  /-- no page runs over the end of the address space -/
  inside : ∀ h ∈ l.created, h.toNat + 4096 ≤ 2 ^ 64
  pages : l.created.Pairwise PagesApart
  flag : ∀ h ∈ l.created, (s.headers h).free = 0 ↔ ∃ ptr ∈ l.live, InSlab ptr h
  owned : ∀ ptr ∈ l.live, ∃ h ∈ l.created, InSlab ptr h
  apart : l.live.Pairwise fun ptr ptr' => ∀ h ∈ l.created, ¬ (InSlab ptr h ∧ InSlab ptr' h)

theorem inSlab_blockOf_iff {j k : Nat} (hj : Room j) (hk : Room k) :
    InSlab (blockOf (slabAddress j)) (slabAddress k) ↔ j = k := by
  rw [InSlab, toNat_blockOf hj, toNat_slabAddress hk]
  omega

theorem Tidy.inSlab_iff {h h' : UInt64} (ht : Tidy s l) (hroom : Room l.created.length)
    (hh : h ∈ l.created) (hh' : h' ∈ l.created) : InSlab (blockOf h) h' ↔ h = h' := by
  obtain ⟨j, hj, rfl⟩ := ht.exists_index hh
  obtain ⟨k, hk, rfl⟩ := ht.exists_index hh'
  rw [inSlab_blockOf_iff (hroom.mono hj.le) (hroom.mono hk.le)]
  constructor
  · rintro rfl
    rfl
  · intro heq
    have hnat := congrArg UInt64.toNat heq
    rw [toNat_slabAddress (hroom.mono hj.le), toNat_slabAddress (hroom.mono hk.le)] at hnat
    omega

theorem Tidy.exclusive (ht : Tidy s l) (hroom : Room l.created.length) : Exclusive s l where
  chain := ht.chain
  once := ht.chain.nodup
  magic := ht.magic
  inside h hh := by
    obtain ⟨k, hk, rfl⟩ := ht.exists_index hh
    have hlt : 0xFFFF8000FFC00000 + 4096 * k < 2 ^ 64 := hroom.mono hk.le
    rw [toNat_slabAddress (hroom.mono hk.le)]
    omega
  pages := by
    refine ht.chain.nodup.imp_of_mem fun {h h'} hh hh' hne => ?_
    obtain ⟨j, hj, rfl⟩ := ht.exists_index hh
    obtain ⟨k, hk, rfl⟩ := ht.exists_index hh'
    have hjk : j ≠ k := fun heq => hne (congrArg slabAddress heq)
    rw [PagesApart, toNat_slabAddress (hroom.mono hj.le), toNat_slabAddress (hroom.mono hk.le)]
    omega
  flag h hh := by
    rw [ht.flag h hh]
    constructor
    · intro hlive
      exact ⟨blockOf h, hlive, (ht.inSlab_iff hroom hh hh).mpr rfl⟩
    · rintro ⟨ptr, hp, hin⟩
      obtain ⟨h', hh', rfl⟩ := ht.owned ptr hp
      rwa [← (ht.inSlab_iff hroom hh' hh).mp hin]
  owned ptr hp := by
    obtain ⟨h, hh, rfl⟩ := ht.owned ptr hp
    exact ⟨h, hh, (ht.inSlab_iff hroom hh hh).mpr rfl⟩
  apart := by
    refine ht.nodup.imp_of_mem fun {ptr ptr'} hp hp' hne h hh hboth => ?_
    obtain ⟨g, hg, rfl⟩ := ht.owned ptr hp
    obtain ⟨g', hg', rfl⟩ := ht.owned ptr' hp'
    exact hne (congrArg blockOf (((ht.inSlab_iff hroom hg hh).mp hboth.1).trans
      ((ht.inSlab_iff hroom hg' hh).mp hboth.2).symm))

/-- A request that failed has left the heap as it was and kept no frame. -/
structure Untouched (s s' : State) (calls : List Call) : Prop where
  heapTop : s'.heapTop = s.heapTop
  freeList : s'.freeList = s.freeList
  headers : s'.headers = s.headers
  frames : heldFrames calls = []

theorem Tidy.untouched (ht : Tidy s l) (hroom : Room l.created.length)
    (hcall : kmallocWith o steps size s = some (0, calls, s')) : Untouched s s' calls := by
  generalize hptr : (0 : UInt64) = ptr at hcall
  cases kmallocWith_cases hcall with
  | empty hsize => exact ⟨rfl, rfl, rfl, rfl⟩
  | reused hsize hfit hslab =>
    obtain ⟨hmem, -⟩ := firstFit_mem ht.chain hfit hslab
    exact absurd hptr.symm (ht.blockOf_ne_zero hroom hmem)
  | refused hsize houtcome hheld hmade => exact ⟨rfl, rfl, rfl, hheld⟩
  | null hsize hslab hmade =>
    rw [ht.heapTop_add] at hslab
    exact absurd hslab (slabAddress_ne_zero hroom)
  | fresh hsize hfit hslab hmade =>
    rw [ht.heapTop_add] at hptr
    exact absurd hptr.symm (MinOS.Heap.blockOf_ne_zero hroom)

theorem SlabRun.heapBase {mayAnswer : Outcome → Prop} {mayFree : History → UInt64 → Prop}
    (h : SlabRun mayAnswer mayFree s l) : s.heapBase = 0xFFFF8000FFC00000 := by
  induction h with
  | start s => rfl
  | kmalloc h o ho steps size hcall ih =>
    cases kmallocWith_cases hcall with
    | empty => exact ih
    | reused => exact ih
    | refused => exact ih
    | null => exact ih
    | fresh => exact ih
  | kfree h ptr hmay ih =>
    rw [MinOS.Heap.kfree]
    split
    · exact ih
    · dsimp only
      split
      · exact ih
      · exact ih

/-- **Live blocks never share storage.** In every state that requests of any size and frees of live pointers
reach, whatever the allocator and the mapper answer, while `heap_top` has not wrapped: the list holds each
slab once, flags and live pointers agree, and no two live pointers belong to one slab; a request returns after
as many steps as there are slabs; and one that returns NULL has changed nothing and given back the frame it
took, which `pmm_free_frame` does return to the allocator. -/
theorem heap_exclusive (s : State) (l : History) (h : SlabRun anyOutcome livePointer s l)
    (hwrap : s.heapTop.toNat = s.heapBase.toNat + 4096 * l.created.length) :
    Exclusive s l ∧
    (∀ o steps size, l.created.length ≤ steps → ∃ r, kmallocWith o steps size s = some r) ∧
    (∀ o steps size calls s', kmallocWith o steps size s = some (0, calls, s') → Untouched s s' calls) ∧
    ∀ pmm pmm' page, pmmAllocFrame pmm = .ok (page, pmm') → page ≠ 0 → pmmFreeFrame page pmm' = .ok pmm := by
  have hroom : Room l.created.length := by
    have hlt := s.heapTop.toNat_lt
    have hbase : (0xFFFF8000FFC00000 : UInt64).toNat = 0xFFFF8000FFC00000 := rfl
    rw [hwrap, h.heapBase, hbase] at hlt
    exact hlt
  have ht := h.tidy hroom
  refine ⟨ht.exclusive hroom, ?_, ?_, ?_⟩
  · intro o steps size hsteps
    obtain ⟨slab, hslab⟩ := firstFit_runs ht.chain hsteps
    exact kmallocWith_runs hslab o
  · intro o steps size calls s' hcall
    exact ht.untouched hroom hcall
  · intro pmm pmm' page halloc hpage
    exact Pmm.pmmFreeFrame_of_pmmAllocFrame halloc hpage

/-- Memory and allocator all zero, before `heap_init` -/
def zeroMemory : State :=
  ⟨⟨Pmm.State.zero, fun _ => 0, 0, 0, 0⟩, fun _ => ⟨0, 0, 0, 0⟩, 0, 0, 0, 0⟩

/-- A frame was left and could be mapped. -/
def mappedFrame : Outcome := ⟨0x1000, 0, zeroMemory.vmm⟩

/-- One request of 16 bytes -/
theorem slabRun_oneBlock {mayAnswer : Outcome → Prop} {mayFree : History → UInt64 → Prop}
    (ho : mayAnswer mappedFrame) : SlabRun mayAnswer mayFree
      (((heapInit zeroMemory).grow mappedFrame.vmm).setFree (slabAddress 0) 0)
      ⟨[(16, blockOf (slabAddress 0))], [slabAddress 0], [blockOf (slabAddress 0)]⟩ :=
  SlabRun.kmalloc (.start zeroMemory) mappedFrame ho 0 16 rfl

/-- Three requests; the block in the middle is freed. -/
theorem slabRun_threeBlocks : ∃ s, SlabRun anyOutcome livePointer s
      ⟨[(16, blockOf (slabAddress 2)), (16, blockOf (slabAddress 1)), (16, blockOf (slabAddress 0))],
        [slabAddress 2, slabAddress 1, slabAddress 0], [blockOf (slabAddress 2), blockOf (slabAddress 0)]⟩ ∧
    s.heapTop.toNat = s.heapBase.toNat + 4096 * 3 ∧ (s.headers (slabAddress 1)).free = 1 := by
  have h₁ : SlabRun anyOutcome livePointer _ _ := slabRun_oneBlock trivial
  have h₂ := SlabRun.kmalloc h₁ mappedFrame trivial 1 16 rfl
  have h₃ := SlabRun.kmalloc h₂ mappedFrame trivial 2 16 rfl
  have hmem : blockOf (slabAddress 1) ∈ [blockOf (slabAddress 2), blockOf (slabAddress 1), blockOf (slabAddress 0)] :=
    List.mem_cons_of_mem _ List.mem_cons_self
  exact ⟨_, SlabRun.kfree h₃ (blockOf (slabAddress 1)) hmem, rfl, rfl⟩

/-- Two live blocks around a free slab -/
theorem heap_exclusive_threeBlocks : ∃ s l, SlabRun anyOutcome livePointer s l ∧
    l.created = [slabAddress 2, slabAddress 1, slabAddress 0] ∧
    l.live = [blockOf (slabAddress 2), blockOf (slabAddress 0)] ∧ (s.headers (slabAddress 1)).free = 1 ∧
    Exclusive s l := by
  obtain ⟨s, hrun, hwrap, hfree⟩ := slabRun_threeBlocks
  exact ⟨s, _, hrun, rfl, rfl, hfree, (heap_exclusive s _ hrun hwrap).1⟩

end MinOS.Heap
