/-
# MinOS.Lib.Pic8259 — the two cascaded 8259A interrupt controllers of a PC.

A controller is programmed through two ports. A word with bit 4 set on the first port starts it over: it
clears its registers and expects two to four initialization words, the rest of them on the second port.
After them the second port is the mask register, and the first takes commands, of which the two ends of
interrupt are here (rotation and polling are not). Lines have fixed priorities, 0 first; a line in service
holds back itself and the lines after it. The second controller hangs on line 2 of the first.

Lines are edge-triggered: an edge is remembered until the processor accepts it.
-/
import Mathlib.Data.Fin.Tuple.Basic
import Mathlib.Logic.Function.Basic

namespace Pic8259

/-! ## One controller -/

/-- What the second port takes next -/
inductive Phase
  | icw2
  | icw3
  | icw4
  | ready
  deriving DecidableEq, Repr

/-- The registers of a controller -/
structure Chip where
  phase : Phase
  /-- There is no third initialization word. -/
  single : Bool
  /-- There is a fourth. -/
  wantsIcw4 : Bool
  /-- The vector of line 0 -/
  base : UInt8
  /-- The lines with a controller behind them, or the number of the line this one is behind -/
  cascade : UInt8
  mode8086 : Bool
  autoEoi : Bool
  mask : UInt8
  /-- Edges not accepted yet -/
  edges : Fin 8 → Bool
  inService : Fin 8 → Bool

namespace Chip

variable (c : Chip)

/-- A write to the first port -/
def command (v : UInt8) : Chip :=
  if v &&& 0x10 ≠ 0 then
    { c with
      phase := .icw2
      single := v &&& 0x02 ≠ 0
      wantsIcw4 := v &&& 0x01 ≠ 0
      mode8086 := false
      autoEoi := false
      mask := 0
      edges := fun _ => false
      inService := fun _ => false }
  else if v = 0x20 then
    -- the end of the interrupt with the highest priority
    match Fin.find? c.inService with
    | none => c
    | some k => { c with inService := Function.update c.inService k false }
  else if v &&& 0xF8 = 0x60 then
    { c with inService := Function.update c.inService (Fin.ofNat 8 v.toNat) false }
  else c

/-- A write to the second port -/
def data (v : UInt8) : Chip :=
  match c.phase with
  | .icw2 =>
    { c with
      base := v &&& 0xF8
      phase := if c.single then (if c.wantsIcw4 then .icw4 else .ready) else .icw3 }
  | .icw3 => { c with cascade := v, phase := if c.wantsIcw4 then .icw4 else .ready }
  | .icw4 => { c with mode8086 := v &&& 0x01 ≠ 0, autoEoi := v &&& 0x02 ≠ 0, phase := .ready }
  | .ready => { c with mask := v }

/-- The mask bit of a line -/
def masked (k : Fin 8) : Bool := c.mask.toBitVec.getLsbD k

/-- An edge on a line -/
def edge (k : Fin 8) : Chip := { c with edges := Function.update c.edges k true }

/-- An edge that is not masked -/
def asks (k : Fin 8) : Bool := c.edges k && !c.masked k

/-- The line whose request goes out: none while a line of at least its priority is in service -/
def request : Option (Fin 8) :=
  if c.phase = .ready then
    (Fin.find? fun k => c.inService k || c.asks k).filter fun k => !c.inService k
  else none

/-- The processor accepts line `k`. -/
def accept (k : Fin 8) : Chip :=
  { c with
    edges := Function.update c.edges k false
    inService := Function.update c.inService k (!c.autoEoi) }

variable {c}

theorem request_eq_some_iff {k : Fin 8} : c.request = some k ↔
    c.phase = .ready ∧ c.asks k = true ∧ c.inService k = false ∧
      ∀ j < k, c.inService j = false ∧ c.asks j = false := by
  unfold request
  split
  · rename_i hready
    rw [Option.filter_eq_some_iff, Fin.find?_eq_some_iff]
    simp only [Bool.or_eq_true, Bool.or_eq_false_iff, Bool.not_eq_true', hready, true_and]
    constructor
    · rintro ⟨⟨hk, hbefore⟩, hfree⟩
      exact ⟨hk.resolve_left (by simp [hfree]), hfree, hbefore⟩
    · rintro ⟨hk, hfree, hbefore⟩
      exact ⟨⟨Or.inr hk, hbefore⟩, hfree⟩
  · rename_i hready
    simp [hready]

/-- With nothing in service the first line that asks goes out. -/
theorem request_isSome_iff (hready : c.phase = .ready) (hfree : ∀ k, c.inService k = false) :
    c.request.isSome = true ↔ ∃ k, c.asks k = true := by
  constructor
  · intro h
    obtain ⟨k, hk⟩ := Option.isSome_iff_exists.mp h
    exact ⟨k, (request_eq_some_iff.mp hk).2.1⟩
  · rintro ⟨k, hk⟩
    have hfind : (Fin.find? c.asks).isSome = true := Fin.isSome_find?_iff.mpr ⟨k, hk⟩
    obtain ⟨j, hj⟩ := Option.isSome_iff_exists.mp hfind
    obtain ⟨hj, hbefore⟩ := Fin.find?_eq_some_iff.mp hj
    rw [request_eq_some_iff.mpr ⟨hready, hj, hfree j, fun i hi => ⟨hfree i, hbefore i hi⟩⟩]
    rfl

/-- Four initialization words and a mask, from any state -/
theorem initialized (c : Chip) (vector cascade mask : UInt8) :
    ((((c.command 0x11).data vector).data cascade).data 0x01).data mask =
      { phase := .ready
        single := false
        wantsIcw4 := true
        base := vector &&& 0xF8
        cascade := cascade
        mode8086 := true
        autoEoi := false
        mask := mask
        edges := fun _ => false
        inService := fun _ => false } := rfl

/-- The end of interrupt of the only line in service -/
theorem command_eoi {k : Fin 8} (h : c.inService = Function.update (fun _ => false) k true) :
    c.command 0x20 = { c with inService := fun _ => false } := by
  have hfind : Fin.find? c.inService = some k := by
    rw [Fin.find?_eq_some_iff, h]
    refine ⟨Function.update_self _ _ _, fun j hj => ?_⟩
    rw [Function.update_of_ne (ne_of_lt hj)]
  have hcommand : c.command 0x20 = match Fin.find? c.inService with
    | none => c
    | some k => { c with inService := Function.update c.inService k false } := rfl
  rw [hcommand, hfind, h]
  simp only [Function.update_idem]
  congr 1
  funext j
  rw [Function.update_apply]
  split <;> rfl

end Chip

/-! ## The pair -/

/-- The two controllers, the second behind line 2 of the first -/
structure Pair where
  master : Chip
  slave : Chip

/-- The lines of the pair -/
inductive Line
  | first (k : Fin 8)
  | second (k : Fin 8)
  deriving DecidableEq, Repr

namespace Line

/-- The number of a line, as software counts them -/
def number : Line → Nat
  | .first k => k
  | .second k => 8 + k

/-- The place of a line in the order in which requests are served -/
def rank : Line → Nat
  | .first k => if k < 2 then k else 8 + k
  | .second k => 2 + k

theorem number_lt (l : Line) : l.number < 16 := by
  cases l <;> simp only [number] <;> omega

end Line

namespace Pair

variable (p : Pair)

/-- A write to a port; there are other ports, too -/
def outb (port : UInt16) (v : UInt8) : Pair :=
  if port = 0x20 then { p with master := p.master.command v }
  else if port = 0x21 then { p with master := p.master.data v }
  else if port = 0xA0 then { p with slave := p.slave.command v }
  else if port = 0xA1 then { p with slave := p.slave.data v }
  else p

/-- A read of a mask register -/
def inb (port : UInt16) : UInt8 := if port = 0x21 then p.master.mask else p.slave.mask

/-- An edge on a line -/
def edge : Line → Pair
  | .first k => { p with master := p.master.edge k }
  | .second k => { p with slave := p.slave.edge k }

/-- The first controller with the request of the second on its line 2 -/
def wired : Chip :=
  { p.master with edges := Function.update p.master.edges 2 p.slave.request.isSome }

/-- The line the pair interrupts the processor for -/
def pending : Option Line :=
  p.wired.request.bind fun k => if k = 2 then p.slave.request.map .second else some (.first k)

/-- The vector a line is acknowledged with. On a line of the second controller the first one must know of
it, and it must know its own number. -/
def vector : Line → Option UInt8
  | .first k => if p.master.mode8086 then some (p.master.base + UInt8.ofNat k) else none
  | .second k =>
    if p.master.cascade &&& 0x04 ≠ 0 ∧ p.slave.cascade &&& 0x07 = 2 ∧ p.slave.mode8086 then
      some (p.slave.base + UInt8.ofNat k)
    else none

/-- The controllers once the processor has accepted a line -/
def serve : Line → Pair
  | .first k => { p with master := p.master.accept k }
  | .second k => { master := p.master.accept 2, slave := p.slave.accept k }

/-- The processor accepts an interrupt: its vector, and the controllers. -/
def accept : Option (UInt8 × Pair) :=
  p.pending.bind fun l => (p.vector l).map fun v => (v, p.serve l)

/-- A line has an edge that reaches the processor. -/
def Asks : Line → Prop
  | .first k => k ≠ 2 ∧ p.master.asks k = true
  | .second k => p.slave.asks k = true ∧ p.master.masked 2 = false

/-- Both controllers are initialized, and nothing is in service. -/
structure Idle : Prop where
  master : p.master.phase = .ready
  slave : p.slave.phase = .ready
  masterFree : ∀ k, p.master.inService k = false
  slaveFree : ∀ k, p.slave.inService k = false

variable {p}

/-- Ranks tell lines apart. -/
theorem rank_inj {l l' : Line} (h : l.rank = l'.rank) : l = l' := by
  cases l with
  | first k =>
    cases l' with
    | first k' =>
      have hk : k = k' := by
        simp only [Line.rank] at h
        split at h <;> split at h <;> omega
      rw [hk]
    | second j =>
      simp only [Line.rank] at h
      split at h <;> omega
  | second j =>
    cases l' with
    | first k =>
      simp only [Line.rank] at h
      split at h <;> omega
    | second j' =>
      have hj : j = j' := by
        simp only [Line.rank] at h
        omega
      rw [hj]

theorem wired_asks_of_ne {k : Fin 8} (hk : k ≠ 2) : p.wired.asks k = p.master.asks k := by
  show (Function.update p.master.edges 2 _ k && _) = _
  rw [Function.update_of_ne hk]
  rfl

theorem wired_asks_two : p.wired.asks 2 = (p.slave.request.isSome && !p.master.masked 2) := by
  show (Function.update p.master.edges 2 _ 2 && _) = _
  rw [Function.update_self]
  rfl

section Idle

variable (h : p.Idle)
include h

theorem Idle.wired_request_eq_some_iff {k : Fin 8} :
    p.wired.request = some k ↔ p.wired.asks k = true ∧ ∀ j < k, p.wired.asks j = false := by
  have hready : p.wired.phase = .ready := h.master
  have hfree : ∀ k, p.wired.inService k = false := h.masterFree
  rw [Chip.request_eq_some_iff]
  simp only [hready, hfree, true_and]

/-- The second controller's request shows on line 2. -/
theorem Idle.wired_asks_two_iff :
    p.wired.asks 2 = true ↔ ∃ j, p.Asks (.second j) := by
  rw [wired_asks_two, Bool.and_eq_true, Bool.not_eq_true',
    Chip.request_isSome_iff h.slave h.slaveFree]
  simp only [Asks, exists_and_right]

theorem Idle.pending_spec {l : Line} (hl : p.pending = some l) :
    p.Asks l ∧ ∀ l', p.Asks l' → l.rank ≤ l'.rank := by
  obtain ⟨k, hk, hl⟩ := Option.bind_eq_some_iff.mp hl
  obtain ⟨hasks, hbefore⟩ := h.wired_request_eq_some_iff.mp hk
  -- what asks on the first controller comes no earlier than `k`
  have hfirst : ∀ k', p.Asks (.first k') → k ≤ k' := by
    rintro k' ⟨hne, hk'⟩
    by_contra hlt
    rw [← wired_asks_of_ne hne, hbefore k' (not_le.mp hlt)] at hk'
    cases hk'
  by_cases h2 : k = 2
  · subst h2
    rw [if_pos rfl] at hl
    obtain ⟨j, hj, rfl⟩ := Option.map_eq_some_iff.mp hl
    obtain ⟨-, hjasks, -, hjbefore⟩ := Chip.request_eq_some_iff.mp hj
    rw [wired_asks_two, Bool.and_eq_true, Bool.not_eq_true'] at hasks
    refine ⟨⟨hjasks, hasks.2⟩, fun l' hl' => ?_⟩
    cases l' with
    | first k' =>
      have hle := hfirst k' hl'
      have hne := hl'.1
      simp only [Line.rank]
      split <;> omega
    | second j' =>
      have hle : j ≤ j' := by
        by_contra hlt
        have hj' := hl'.1
        rw [(hjbefore j' (not_le.mp hlt)).2] at hj'
        cases hj'
      simp only [Line.rank]
      omega
  · rw [if_neg h2] at hl
    cases hl
    refine ⟨⟨h2, by rw [← wired_asks_of_ne h2, hasks]⟩, fun l' hl' => ?_⟩
    cases l' with
    | first k' =>
      have hle := hfirst k' hl'
      simp only [Line.rank]
      split <;> split <;> omega
    | second j =>
      have hlt : k < 2 := by
        by_contra hge
        have hbefore2 := hbefore 2 (by omega)
        rw [h.wired_asks_two_iff.mpr ⟨j, hl'⟩] at hbefore2
        cases hbefore2
      simp only [Line.rank, if_pos hlt]
      omega

/-- **With nothing in service the pair interrupts for the first line that asks**, in the order of ranks. -/
theorem Idle.pending_eq_some_iff {l : Line} :
    p.pending = some l ↔ p.Asks l ∧ ∀ l', p.Asks l' → l.rank ≤ l'.rank := by
  refine ⟨h.pending_spec, fun ⟨hl, hmin⟩ => ?_⟩
  have hsome : p.pending.isSome = true := by
    have hrequest : p.wired.request.isSome = true := by
      refine (Chip.request_isSome_iff (c := p.wired) h.master h.masterFree).mpr ?_
      cases l with
      | first k => exact ⟨k, by rw [wired_asks_of_ne hl.1, hl.2]⟩
      | second j => exact ⟨2, h.wired_asks_two_iff.mpr ⟨j, hl⟩⟩
    obtain ⟨k, hk⟩ := Option.isSome_iff_exists.mp hrequest
    rw [pending, hk, Option.bind_some]
    split
    · rename_i h2
      subst h2
      have hasks := (h.wired_request_eq_some_iff.mp hk).1
      rw [wired_asks_two, Bool.and_eq_true] at hasks
      rw [Option.isSome_map, hasks.1]
    · rfl
  obtain ⟨l', hl'⟩ := Option.isSome_iff_exists.mp hsome
  obtain ⟨hasks, hfirst⟩ := h.pending_spec hl'
  rw [hl', rank_inj (Nat.le_antisymm (hmin l' hasks) (hfirst l hl))]

end Idle

end Pair

end Pic8259
