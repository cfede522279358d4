/-
# MinOS.Interrupt.Idt — `idt_init` of `kernel/idt.c`, and what the processor does with the table.

`set_gate` writes fields; the processor reads the sixteen bytes of a gate and puts the address together
again. A vector without a gate is itself a fault, and a fault in delivering a fault may be a double fault
and then a shutdown (`deliverVector`). The table has gates for seven exceptions and the sixteen IRQs only, but
among them are the two that matter here: every vector ends in a handler (`idt_routes`).

A stub hands its vector to C in one of two ways, and both arrive: as the argument of `exception_dispatch`
or in the frame of `irq_dispatch`.
-/
import MinOS.Interrupt

namespace MinOS.Interrupt

open Amd64
open Bytes (leByte leNat leNat_congr leNat_leByte)

/-! ## The table -/

/-- `struct idt_gate` -/
structure Gate where
  offsetLow : UInt16
  selector : UInt16
  ist : UInt8
  typeAttr : UInt8
  offsetMid : UInt16
  offsetHigh : UInt32
  zero : UInt32
  deriving DecidableEq, Repr

/-- Two zero words -/
def Gate.cleared : Gate := ⟨0, 0, 0, 0, 0, 0, 0⟩

/-- Byte `k` of the packed structure -/
def Gate.byte (g : Gate) (k : Nat) : UInt8 :=
  if k < 2 then leByte g.offsetLow.toNat k
  else if k < 4 then leByte g.selector.toNat (k - 2)
  else if k < 5 then g.ist
  else if k < 6 then g.typeAttr
  else if k < 8 then leByte g.offsetMid.toNat (k - 6)
  else if k < 12 then leByte g.offsetHigh.toNat (k - 8)
  else leByte g.zero.toNat (k - 12)

/-- `idt[256]` -/
abbrev Idt := UInt8 → Gate

/-- The functions a gate can lead to -/
inductive Stub
  /-- `isr_n` -/
  | isr (n : UInt8)
  /-- `irq_n` -/
  | irq (n : UInt8)
  deriving DecidableEq, Repr

/-- The fields `set_gate` writes for a function at `a` -/
def Gate.to (a : UInt64) : Gate where
  offsetLow := a.toUInt16
  selector := 8
  ist := 0
  typeAttr := 0x8E
  offsetMid := (a >>> 16).toUInt16
  offsetHigh := (a >>> 32).toUInt32
  zero := 0

/-- `set_gate`; `a` is the address of the function -/
def setGate (n : UInt8) (a : UInt64) (idt : Idt) : Idt := Function.update idt n (Gate.to a)

/-- The calls of `set_gate`, in order -/
def gates : List (UInt8 × Stub) :=
  [(0, .isr 0), (1, .isr 1), (3, .isr 3), (6, .isr 6), (8, .isr 8), (13, .isr 13), (14, .isr 14),
    (32, .irq 32), (33, .irq 33), (34, .irq 34), (35, .irq 35), (36, .irq 36), (37, .irq 37), (38, .irq 38),
    (39, .irq 39), (40, .irq 40), (41, .irq 41), (42, .irq 42), (43, .irq 43), (44, .irq 44), (45, .irq 45),
    (46, .irq 46), (47, .irq 47)]

/-- What `lidt` loads -/
structure IdtPtr where
  limit : UInt16
  base : UInt64

/-- `idt_init`: the table and the operand of `lidt`. `entry` gives the addresses of the stubs. -/
def idtInit (entry : Stub → UInt64) (address : UInt64) (idt : Idt) : Idt × IdtPtr :=
  let idt := (List.range 256).foldl (fun idt i => Function.update idt (UInt8.ofNat i) Gate.cleared) idt
  let idt := gates.foldl (fun idt g => setGate g.1 (entry g.2) idt) idt
  (idt, ⟨UInt16.ofNat (256 * 16 - 1), address⟩)

/-! ## The processor -/

/-- A gate as the processor sees it -/
structure Descriptor where
  offset : UInt64
  selector : UInt16
  ist : UInt8
  type : UInt8
  dpl : UInt8
  present : Bool
  deriving DecidableEq, Repr

/-- The sixteen bytes of a gate -/
def fetch (b : Nat → UInt8) : Descriptor where
  offset := UInt64.ofNat (leNat 2 b + 2 ^ 16 * leNat 2 (fun k => b (6 + k)) + 2 ^ 32 * leNat 4 fun k => b (8 + k))
  selector := UInt16.ofNat (leNat 2 fun k => b (2 + k))
  ist := b 4 &&& 0x07
  -- with bit 4, which is 0 for gates
  type := b 5 &&& 0x1F
  dpl := (b 5 >>> 5) &&& 0x03
  present := b 5 &&& 0x80 != 0

/-- A present interrupt or trap gate -/
def Descriptor.Usable (d : Descriptor) : Prop := (d.type = 0xE ∨ d.type = 0xF) ∧ d.present = true

instance (d : Descriptor) : Decidable d.Usable := inferInstanceAs (Decidable (_ ∧ _))

/-- The gate of a vector is in the table, and usable. -/
def Routed (idt : Idt) (p : IdtPtr) (v : UInt8) : Prop :=
  16 * v.toNat + 15 ≤ p.limit.toNat ∧ (fetch (idt v).byte).Usable

instance (idt : Idt) (p : IdtPtr) (v : UInt8) : Decidable (Routed idt p v) := inferInstanceAs (Decidable (_ ∧ _))

/-- Divide error, invalid TSS, segment not present, stack fault, general protection, control protection; page
fault and virtualization: a fault while one of these is delivered is a double fault. -/
def escalating : List UInt8 := [0, 10, 11, 12, 13, 21, 14, 20]

/-- The vector whose handler runs in the end: a vector without a usable gate is a general protection fault, or
a double fault if it was one to begin with; a double fault without a gate shuts the processor down. -/
def deliverVector (idt : Idt) (p : IdtPtr) (v : UInt8) : Option UInt8 :=
  if Routed idt p v then some v
  else if v ≠ 8 ∧ v ∉ escalating ∧ Routed idt p 13 then some 13
  else if v ≠ 8 ∧ Routed idt p 8 then some 8
  else none

/-! ## Gates -/

/-- **The three parts of an address come together again.** -/
theorem offset_parts (a : UInt64) :
    UInt64.ofNat (a.toUInt16.toNat + 2 ^ 16 * (a >>> 16).toUInt16.toNat + 2 ^ 32 * (a >>> 32).toUInt32.toNat)
      = a := by
  have hlt := a.toNat_lt
  have h16 : (16 : UInt64).toNat % 64 = 16 := rfl
  have h32 : (32 : UInt64).toNat % 64 = 32 := rfl
  apply UInt64.toNat_inj.mp
  rw [UInt64.toNat_ofNat', UInt64.toNat_toUInt16, UInt64.toNat_toUInt16, UInt64.toNat_toUInt32,
    UInt64.toNat_shiftRight, UInt64.toNat_shiftRight, h16, h32, Nat.shiftRight_eq_div_pow,
    Nat.shiftRight_eq_div_pow]
  omega

/-- The fields behind the sixteen bytes -/
theorem Gate.fetch_byte (g : Gate) : fetch g.byte =
    { offset := UInt64.ofNat (g.offsetLow.toNat + 2 ^ 16 * g.offsetMid.toNat + 2 ^ 32 * g.offsetHigh.toNat)
      selector := g.selector
      ist := g.ist &&& 0x07
      type := g.typeAttr &&& 0x1F
      dpl := (g.typeAttr >>> 5) &&& 0x03
      present := g.typeAttr &&& 0x80 != 0 } := by
  have hword : ∀ w : UInt16, leNat 2 (leByte w.toNat) = w.toNat := by
    intro w
    have hlt : w.toNat < 256 ^ 2 := w.toNat_lt
    rw [leNat_leByte, Nat.mod_eq_of_lt hlt]
  have hlong : ∀ w : UInt32, leNat 4 (leByte w.toNat) = w.toNat := by
    intro w
    have hlt : w.toNat < 256 ^ 4 := w.toNat_lt
    rw [leNat_leByte, Nat.mod_eq_of_lt hlt]
  have hlow : leNat 2 g.byte = g.offsetLow.toNat :=
    (leNat_congr fun k hk => if_pos hk).trans (hword g.offsetLow)
  have hselector : leNat 2 (fun k => g.byte (2 + k)) = g.selector.toNat := by
    refine (leNat_congr fun k hk => ?_).trans (hword g.selector)
    obtain rfl | rfl : k = 0 ∨ k = 1 := by omega
    all_goals rfl
  have hmid : leNat 2 (fun k => g.byte (6 + k)) = g.offsetMid.toNat := by
    refine (leNat_congr fun k hk => ?_).trans (hword g.offsetMid)
    obtain rfl | rfl : k = 0 ∨ k = 1 := by omega
    all_goals rfl
  have hhigh : leNat 4 (fun k => g.byte (8 + k)) = g.offsetHigh.toNat := by
    refine (leNat_congr fun k hk => ?_).trans (hlong g.offsetHigh)
    obtain rfl | rfl | rfl | rfl : k = 0 ∨ k = 1 ∨ k = 2 ∨ k = 3 := by omega
    all_goals rfl
  rw [fetch, hlow, hselector, hmid, hhigh, UInt16.ofNat_toNat]
  rfl

/-- **What `set_gate` writes is what the processor reads**: the address of the function, and an interrupt gate
of the kernel's code segment, for the kernel only, on the stack in use. -/
theorem fetch_to (a : UInt64) : fetch (Gate.to a).byte = ⟨a, 8, 0, 0x0E, 0, true⟩ := by
  have htype : (0x8E : UInt8) &&& 0x1F = 0x0E := by decide
  have hdpl : ((0x8E : UInt8) >>> 5) &&& 0x03 = 0 := by decide
  have hpresent : ((0x8E : UInt8) &&& 0x80 != 0) = true := by decide
  have hist : (0 : UInt8) &&& 0x07 = 0 := by decide
  rw [Gate.fetch_byte]
  simp only [Gate.to, offset_parts, htype, hdpl, hpresent, hist]

theorem not_usable_cleared : ¬ (fetch Gate.cleared.byte).Usable := by
  rw [Gate.fetch_byte]
  decide

/-! ## The table of `idt_init` -/

theorem cleared_foldl (idt : Idt) :
    (List.range 256).foldl (fun idt i => Function.update idt (UInt8.ofNat i) Gate.cleared) idt
      = fun _ => Gate.cleared := by
  have hfold : ∀ (is : List Nat) (idt : Idt) (v : UInt8),
      is.foldl (fun idt i => Function.update idt (UInt8.ofNat i) Gate.cleared) idt v
        = if ∃ i ∈ is, UInt8.ofNat i = v then Gate.cleared else idt v := by
    intro is
    induction is with
    | nil => intro idt v; simp
    | cons i is ih =>
      intro idt v
      rw [List.foldl_cons, ih, Function.update_apply]
      by_cases hrest : ∃ j ∈ is, UInt8.ofNat j = v
      · rw [if_pos hrest, if_pos (hrest.imp fun j hj => ⟨List.mem_cons_of_mem i hj.1, hj.2⟩)]
      · rw [if_neg hrest]
        by_cases hi : v = UInt8.ofNat i
        · rw [if_pos hi, if_pos ⟨i, List.mem_cons_self, hi.symm⟩]
        · rw [if_neg hi, if_neg]
          rintro ⟨j, hj, hjv⟩
          rcases List.mem_cons.mp hj with rfl | hj
          · exact hi hjv.symm
          · exact hrest ⟨j, hj, hjv⟩
  funext v
  rw [hfold, if_pos ⟨v.toNat, List.mem_range.mpr v.toNat_lt, UInt8.ofNat_toNat⟩]

/-- The gates of a list of vectors, no two the same, do not disturb each other. -/
theorem setGate_foldl (entry : Stub → UInt64) (gs : List (UInt8 × Stub)) (hnodup : (gs.map Prod.fst).Nodup)
    (idt : Idt) (v : UInt8) :
    gs.foldl (fun idt g => setGate g.1 (entry g.2) idt) idt v
      = ((gs.lookup v).map fun stub => Gate.to (entry stub)).getD (idt v) := by
  induction gs generalizing idt with
  | nil => rfl
  | cons g gs ih =>
    obtain ⟨n, stub⟩ := g
    rw [List.map_cons, List.nodup_cons] at hnodup
    rw [List.foldl_cons, ih hnodup.2, List.lookup_cons, setGate, Function.update_apply]
    by_cases hn : v = n
    · -- no later gate is for the same vector
      subst hn
      have hnone : gs.lookup v = none := by
        rw [List.lookup_eq_none_iff]
        intro g hg
        rw [bne_iff_ne]
        rintro rfl
        exact hnodup.1 (List.mem_map.mpr ⟨g, hg, rfl⟩)
      rw [hnone, if_pos rfl, beq_self_eq_true]
      rfl
    · rw [if_neg hn, beq_eq_false_iff_ne.mpr hn]

/-- The stub behind a vector -/
def stubFor (v : UInt8) : Option Stub := gates.lookup v

theorem idtInit_gate (entry : Stub → UInt64) (address : UInt64) (idt : Idt) (v : UInt8) :
    (idtInit entry address idt).1 v
      = ((stubFor v).map fun stub => Gate.to (entry stub)).getD Gate.cleared := by
  rw [idtInit, cleared_foldl]
  exact setGate_foldl entry gates (by decide) _ v

/-- A vector is routed exactly if it has a stub. -/
theorem routed_idtInit_iff (entry : Stub → UInt64) (address : UInt64) (idt : Idt) (v : UInt8) :
    Routed (idtInit entry address idt).1 (idtInit entry address idt).2 v ↔ (stubFor v).isSome = true := by
  have hlimit : 16 * v.toNat + 15 ≤ (idtInit entry address idt).2.limit.toNat := by
    have hlt := v.toNat_lt
    show _ ≤ 4095
    omega
  rw [Routed, and_iff_right hlimit, idtInit_gate]
  cases stubFor v with
  | none => exact iff_of_false not_usable_cleared Bool.false_ne_true
  | some stub =>
    refine iff_of_true ?_ rfl
    rw [Option.map_some, Option.getD_some, fetch_to]
    exact ⟨Or.inl rfl, rfl⟩

/-! ## The stubs of exceptions -/

/-- `ISR_NOERR(n)` and `ISR_ERR(n)`, which are the same, up to the first instruction of `exception_dispatch` -/
def toException (n ret : UInt64) (c : Cpu) : Cpu :=
  let d := pushValue n c
  pushValue ret (alignStack (d.set .rcx (load d.mem (d.regs .rsp))))

/-- The argument of `exception_dispatch`, whatever the processor has pushed -/
theorem toException_rcx (n ret : UInt64) (c : Cpu) : (toException n ret c).regs .rcx = n := by
  have hcall : (toException n ret c).regs .rcx
      = load (pushValue n c).mem ((pushValue n c).regs .rsp) := rfl
  rw [hcall, pushValue_rsp, pushValue_mem, load_store]

/-- At the call the stack is aligned as the convention has it: to 16 bytes before the return address. -/
theorem aligned_call (ret : UInt64) (d : Cpu) :
    ((pushValue ret (alignStack d)).regs .rsp + 8) &&& 15 = 0 := by
  rw [pushValue_rsp, UInt64.sub_add_cancel, alignStack, set_regs_self]
  apply UInt64.toNat_inj.mp
  have hlow := Word.toNat_and_low (k := 4) ((d.regs .rsp &&& ~~~15) - 32) 15 rfl
  have hround := Word.toNat_and_not_low (k := 4) (d.regs .rsp) 15 rfl
  have h32 : (32 : UInt64).toNat = 32 := rfl
  rw [hlow, UInt64.toNat_sub, hround, h32]
  show _ = 0
  have hlt := (d.regs .rsp).toNat_lt
  omega

/-! ## From a vector to C -/

/-- The C function behind a stub is called with vector `v`: in `rcx`, or in the frame `rcx` points to, the
stack aligned, from any state of the program that is interrupted. -/
def Calls (v : UInt64) : Stub → Prop
  | .isr n => ∀ ret c, (toException n.toUInt64 ret c).regs .rcx = v ∧
      ((toException n.toUInt64 ret c).regs .rsp + 8) &&& 15 = 0
  | .irq n => ∀ x ret base c,
      readField (toDispatch n.toUInt64 ret (deliver x base c)).mem
        ((toDispatch n.toUInt64 ret (deliver x base c)).regs .rcx) .vector = v ∧
      ((toDispatch n.toUInt64 ret (deliver x base c)).regs .rsp + 8) &&& 15 = 0

/-- A stub passes its own number on. -/
theorem calls_number (stub : Stub) (v : UInt8) (h : stub = .isr v ∨ stub = .irq v) :
    Calls v.toUInt64 stub := by
  rcases h with rfl | rfl
  · intro ret c
    exact ⟨toException_rcx _ ret c, aligned_call ret _⟩
  · intro x ret base c
    exact ⟨readField_eq (atDispatch_toDispatch x _ ret base c) .vector, aligned_call ret _⟩

/-- The stubs are at their own vectors. -/
theorem stubFor_number {v : UInt8} {stub : Stub} (h : stubFor v = some stub) :
    stub = .isr v ∨ stub = .irq v := by
  have hall : ∀ g ∈ gates, g.2 = .isr g.1 ∨ g.2 = .irq g.1 := by decide
  obtain ⟨before, after, hsplit, -⟩ := List.lookup_eq_some_iff.mp h
  have hmem : (v, stub) ∈ gates := by
    rw [hsplit]
    simp
  exact hall _ hmem

/-- **Every vector ends in a handler that is told which one.** Whatever the table held and wherever the stubs
lie, after `idt_init` the processor delivers each of the 256 vectors: those with a gate as themselves, the
others as a general protection fault or a double fault, none of them by shutting down. The gate it uses leads
to the stub of that vector, with interrupts off and on the kernel's code segment, and the stub calls its C
function with that vector. -/
theorem idt_routes (entry : Stub → UInt64) (address : UInt64) (idt : Idt) (v : UInt8) :
    ∃ w stub, deliverVector (idtInit entry address idt).1 (idtInit entry address idt).2 v = some w ∧
      stubFor w = some stub ∧ ((stubFor v).isSome = true → w = v) ∧
      (stubFor v = none → w = 13 ∨ w = 8) ∧
      fetch ((idtInit entry address idt).1 w).byte = ⟨entry stub, 8, 0, 0x0E, 0, true⟩ ∧
      Calls w.toUInt64 stub := by
  have hrouted := routed_idtInit_iff entry address idt
  have hgate : ∀ w stub, stubFor w = some stub →
      fetch ((idtInit entry address idt).1 w).byte = ⟨entry stub, 8, 0, 0x0E, 0, true⟩ ∧
        Calls w.toUInt64 stub := by
    intro w stub hw
    rw [idtInit_gate, hw, Option.map_some, Option.getD_some, fetch_to]
    exact ⟨rfl, calls_number stub w (stubFor_number hw)⟩
  have h13 : Routed (idtInit entry address idt).1 (idtInit entry address idt).2 13 := (hrouted 13).mpr rfl
  have h8 : Routed (idtInit entry address idt).1 (idtInit entry address idt).2 8 := (hrouted 8).mpr rfl
  cases hv : stubFor v with
  | some stub =>
    refine ⟨v, stub, ?_, hv, fun _ => rfl, nofun, hgate v stub hv⟩
    rw [deliverVector, if_pos ((hrouted v).mpr (by rw [hv]; rfl))]
  | none =>
    have hno : ¬ Routed (idtInit entry address idt).1 (idtInit entry address idt).2 v := by
      rw [hrouted, hv]
      exact Bool.false_ne_true
    have hne : v ≠ 8 := by
      rintro rfl
      cases hv
    by_cases hescalates : v ∈ escalating
    · refine ⟨8, .isr 8, ?_, rfl, nofun, fun _ => Or.inr rfl, hgate 8 _ rfl⟩
      rw [deliverVector, if_neg hno, if_neg fun h => h.2.1 hescalates, if_pos ⟨hne, h8⟩]
    · refine ⟨13, .isr 13, ?_, rfl, nofun, fun _ => Or.inl rfl, hgate 13 _ rfl⟩
      rw [deliverVector, if_neg hno, if_pos ⟨hne, hescalates, h13⟩]

end MinOS.Interrupt
