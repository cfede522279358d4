/-
# MinOS.Interrupt.Pic — `pic_mask_all`, `pic_unmask_irq` and `pic_eoi` of `kernel/apic.c`.

The three functions are port writes; they run here against the controllers of `MinOS.Lib.Pic8259`.

`pic_mask_all` brings the pair into one state whatever state the firmware left it in, and each
`pic_unmask_irq` opens one line. So the vectors the processor can see are known (`accept_after_unmask`); a
line of the second controller stays closed until line 2 of the first one is opened, which `pic_unmask_irq`
does not do by itself.
-/
import MinOS.Lib.Pic8259

namespace MinOS.Interrupt

open Pic8259

/-! ## The port writes -/

/-- `io_wait` -/
def ioWait (p : Pair) : Pair := p.outb 0x80 0

/-- `pic_mask_all` -/
def picMaskAll (p : Pair) : Pair :=
  let p := ioWait (p.outb 0x20 0x11)
  let p := ioWait (p.outb 0xA0 0x11)
  let p := ioWait (p.outb 0x21 0x20)
  let p := ioWait (p.outb 0xA1 0x28)
  let p := ioWait (p.outb 0x21 0x04)
  let p := ioWait (p.outb 0xA1 0x02)
  let p := ioWait (p.outb 0x21 0x01)
  let p := ioWait (p.outb 0xA1 0x01)
  (p.outb 0x21 0xFF).outb 0xA1 0xFF

/-- `pic_unmask_irq` -/
def picUnmaskIrq (p : Pair) (irq : UInt8) : Pair :=
  if irq < 8 then p.outb 0x21 (p.inb 0x21 &&& (~~~((1 : UInt32) <<< irq.toUInt32)).toUInt8)
  else if irq < 16 then
    p.outb 0xA1 (p.inb 0xA1 &&& (~~~((1 : UInt32) <<< (irq - 8).toUInt32)).toUInt8)
  else p

/-- `pic_eoi` -/
def picEoi (irq : UInt8) (p : Pair) : Pair :=
  (if irq ≥ 8 then p.outb 0xA0 0x20 else p).outb 0x20 0x20

/-! ## What they leave -/

/-- The initialization words of `pic_mask_all` are in. -/
structure Programmed (p : Pair) : Prop where
  masterReady : p.master.phase = .ready
  slaveReady : p.slave.phase = .ready
  masterBase : p.master.base = 0x20
  slaveBase : p.slave.base = 0x28
  masterCascade : p.master.cascade = 0x04
  slaveCascade : p.slave.cascade = 0x02
  master8086 : p.master.mode8086 = true
  slave8086 : p.slave.mode8086 = true
  masterEoi : p.master.autoEoi = false
  slaveEoi : p.slave.autoEoi = false

/-- Nothing is in service. -/
structure Quiet (p : Pair) : Prop where
  master : ∀ k, p.master.inService k = false
  slave : ∀ k, p.slave.inService k = false

theorem Programmed.idle {p : Pair} (h : Programmed p) (hquiet : Quiet p) : p.Idle :=
  ⟨h.masterReady, h.slaveReady, hquiet.master, hquiet.slave⟩

theorem picMaskAll_eq (p : Pair) : picMaskAll p =
    { master := ((((p.master.command 0x11).data 0x20).data 0x04).data 0x01).data 0xFF
      slave := ((((p.slave.command 0x11).data 0x28).data 0x02).data 0x01).data 0xFF } := rfl

/-- **`pic_mask_all` forgets what was before.** -/
theorem programmed_picMaskAll (p : Pair) : Programmed (picMaskAll p) ∧ Quiet (picMaskAll p) := by
  rw [picMaskAll_eq, Chip.initialized, Chip.initialized]
  exact ⟨⟨rfl, rfl, rfl, rfl, rfl, rfl, rfl, rfl, rfl, rfl⟩, fun _ => rfl, fun _ => rfl⟩

/-- Lines are acknowledged with the vectors from 32 on. -/
theorem Programmed.vector_eq {p : Pair} (h : Programmed p) (l : Line) :
    p.vector l = some (32 + UInt8.ofNat l.number) := by
  cases l with
  | first k =>
    rw [Pair.vector, h.master8086, h.masterBase]
    rfl
  | second k =>
    have hsum : ∀ k : Fin 8, (0x28 : UInt8) + UInt8.ofNat k = 32 + UInt8.ofNat (8 + k) := by decide
    rw [Pair.vector, h.masterCascade, h.slaveCascade, h.slave8086, h.slaveBase,
      if_pos ⟨by decide, by decide, rfl⟩, hsum]
    rfl

theorem Programmed.edge {p : Pair} (h : Programmed p) (l : Line) : Programmed (p.edge l) := by
  obtain ⟨h1, h2, h3, h4, h5, h6, h7, h8, h9, h10⟩ := h
  cases l <;> exact ⟨h1, h2, h3, h4, h5, h6, h7, h8, h9, h10⟩

theorem Quiet.edge {p : Pair} (h : Quiet p) (l : Line) : Quiet (p.edge l) := by
  cases l <;> exact ⟨h.master, h.slave⟩

/-- A programmed controller takes what is written to its second port as its mask. -/
theorem data_of_ready {c : Chip} (h : c.phase = .ready) (v : UInt8) : c.data v = { c with mask := v } := by
  rw [Chip.data, h]

theorem Programmed.picUnmaskIrq_eq {p : Pair} (h : Programmed p) (irq : UInt8) :
    picUnmaskIrq p irq =
      if irq < 8 then
        { p with master := { p.master with
          mask := p.master.mask &&& (~~~((1 : UInt32) <<< irq.toUInt32)).toUInt8 } }
      else if irq < 16 then
        { p with slave := { p.slave with
          mask := p.slave.mask &&& (~~~((1 : UInt32) <<< (irq - 8).toUInt32)).toUInt8 } }
      else p := by
  unfold picUnmaskIrq
  split
  · show { p with master := p.master.data _ } = _
    rw [data_of_ready h.masterReady]
    rfl
  · split
    · show { p with slave := p.slave.data _ } = _
      rw [data_of_ready h.slaveReady]
      rfl
    · rfl

theorem Programmed.unmask {p : Pair} (h : Programmed p) (irq : UInt8) : Programmed (picUnmaskIrq p irq) := by
  rw [h.picUnmaskIrq_eq]
  obtain ⟨h1, h2, h3, h4, h5, h6, h7, h8, h9, h10⟩ := h
  split
  · exact ⟨h1, h2, h3, h4, h5, h6, h7, h8, h9, h10⟩
  · split <;> exact ⟨h1, h2, h3, h4, h5, h6, h7, h8, h9, h10⟩

theorem Programmed.quiet_unmask {p : Pair} (h : Programmed p) (hquiet : Quiet p) (irq : UInt8) :
    Quiet (picUnmaskIrq p irq) := by
  rw [h.picUnmaskIrq_eq]
  split
  · exact ⟨hquiet.master, hquiet.slave⟩
  · split <;> exact ⟨hquiet.master, hquiet.slave⟩

/-- The byte `~(1U << n)` has every bit but one. -/
theorem getLsbD_not_bit (n : Fin 8) (k : Fin 8) :
    (~~~((1 : UInt32) <<< (UInt8.ofNat n).toUInt32)).toUInt8.toBitVec.getLsbD k = decide (k ≠ n) := by
  revert n k
  decide

/-- The byte written by an unmask of line `n` clears one bit. -/
theorem getLsbD_and_not_bit (m : UInt8) (n k : Fin 8) :
    (m &&& (~~~((1 : UInt32) <<< (UInt8.ofNat n).toUInt32)).toUInt8).toBitVec.getLsbD k
      = (m.toBitVec.getLsbD k && decide (k ≠ n)) := by
  rw [UInt8.toBitVec_and, BitVec.getLsbD_and, getLsbD_not_bit]

/-- The IRQ numbers: of the first controller, of the second, and the rest -/
theorem irq_cases (irq : UInt8) :
    (∃ n : Fin 8, irq = UInt8.ofNat n) ∨ (∃ n : Fin 8, irq = UInt8.ofNat (8 + n)) ∨ 16 ≤ irq.toNat := by
  rcases Nat.lt_or_ge irq.toNat 8 with h | h
  · exact Or.inl ⟨⟨irq.toNat, h⟩, UInt8.ofNat_toNat.symm⟩
  · rcases Nat.lt_or_ge irq.toNat 16 with h' | h'
    · refine Or.inr (Or.inl ⟨⟨irq.toNat - 8, by omega⟩, ?_⟩)
      rw [show 8 + (irq.toNat - 8) = irq.toNat by omega, UInt8.ofNat_toNat]
    · exact Or.inr (Or.inr h')

/-- **An unmask opens one line**, and none for a number from 16 on. -/
theorem Programmed.masked_unmask {p : Pair} (h : Programmed p) (irq : UInt8) (k : Fin 8) :
    (picUnmaskIrq p irq).master.masked k
      = (p.master.masked k && decide (irq ≠ UInt8.ofNat k)) ∧
    (picUnmaskIrq p irq).slave.masked k
      = (p.slave.masked k && decide (irq ≠ UInt8.ofNat (8 + k))) := by
  have hlow : ∀ n : Fin 8, UInt8.ofNat n < 8 := by decide
  have hhigh : ∀ n : Fin 8, ¬ UInt8.ofNat (8 + n) < 8 ∧ UInt8.ofNat (8 + n) < 16 ∧
      UInt8.ofNat (8 + n) - 8 = UInt8.ofNat n := by decide
  have hsame : ∀ n k : Fin 8, decide (UInt8.ofNat n ≠ UInt8.ofNat k) = decide (k ≠ n) ∧
      decide (UInt8.ofNat (8 + n) ≠ UInt8.ofNat (8 + k)) = decide (k ≠ n) ∧
      UInt8.ofNat n ≠ UInt8.ofNat (8 + k) := by decide
  rw [h.picUnmaskIrq_eq]
  rcases irq_cases irq with ⟨n, rfl⟩ | ⟨n, rfl⟩ | hrest
  · rw [if_pos (hlow n)]
    refine ⟨?_, ?_⟩
    · rw [(hsame n k).1]
      exact getLsbD_and_not_bit p.master.mask n k
    · rw [decide_eq_true (hsame n k).2.2, Bool.and_true]
  · rw [if_neg (hhigh n).1, if_pos (hhigh n).2.1]
    refine ⟨?_, ?_⟩
    · rw [decide_eq_true (hsame k n).2.2.symm, Bool.and_true]
    · rw [(hsame n k).2.1, (hhigh n).2.2]
      exact getLsbD_and_not_bit p.slave.mask n k
  · have hge : ¬ irq < 8 ∧ ¬ irq < 16 := by
      rw [UInt8.lt_iff_toNat_lt, UInt8.lt_iff_toNat_lt]
      have h8 : (8 : UInt8).toNat = 8 := rfl
      have h16 : (16 : UInt8).toNat = 16 := rfl
      omega
    have hne : ∀ m < 16, irq ≠ UInt8.ofNat m := by
      rintro m hm rfl
      rw [UInt8.toNat_ofNat', Nat.mod_eq_of_lt (by omega)] at hrest
      omega
    have hk := k.isLt
    rw [if_neg hge.1, if_neg hge.2, decide_eq_true (hne k (by omega)),
      decide_eq_true (hne (8 + k) (by omega)), Bool.and_true, Bool.and_true]
    exact ⟨rfl, rfl⟩

/-! ## Any unmasks, any edges -/

/-- What may happen between `pic_mask_all` and the first interrupt -/
inductive PicEvent
  | unmask (irq : UInt8)
  | edge (l : Line)
  deriving DecidableEq, Repr

/-- The controllers after an event -/
def picEvent (p : Pair) : PicEvent → Pair
  | .unmask irq => picUnmaskIrq p irq
  | .edge l => p.edge l

/-- `pic_mask_all`, then the events -/
def picAfter (es : List PicEvent) (p : Pair) : Pair := es.foldl picEvent (picMaskAll p)

/-- The masks are what the unmasks left of `0xFF`, and every edge is remembered. -/
structure Records (es : List PicEvent) (p : Pair) : Prop where
  programmed : Programmed p
  quiet : Quiet p
  masterMask : ∀ k : Fin 8, p.master.masked k = false ↔ .unmask (UInt8.ofNat k) ∈ es
  slaveMask : ∀ k : Fin 8, p.slave.masked k = false ↔ .unmask (UInt8.ofNat (8 + k)) ∈ es
  masterEdges : ∀ k : Fin 8, p.master.edges k = true ↔ .edge (.first k) ∈ es
  slaveEdges : ∀ k : Fin 8, p.slave.edges k = true ↔ .edge (.second k) ∈ es

theorem records_picMaskAll (p : Pair) : Records [] (picMaskAll p) := by
  obtain ⟨hprogrammed, hquiet⟩ := programmed_picMaskAll p
  have hff : ∀ k : Fin 8, (0xFF : UInt8).toBitVec.getLsbD k = true := by decide
  have hmaster : (picMaskAll p).master.mask = 0xFF := rfl
  have hslave : (picMaskAll p).slave.mask = 0xFF := rfl
  refine ⟨hprogrammed, hquiet, fun k => ?_, fun k => ?_, fun k => ?_, fun k => ?_⟩
  · rw [Chip.masked, hmaster, hff]
    simp
  · rw [Chip.masked, hslave, hff]
    simp
  · exact iff_of_false Bool.false_ne_true List.not_mem_nil
  · exact iff_of_false Bool.false_ne_true List.not_mem_nil

theorem Records.unmask {es : List PicEvent} {p : Pair} (h : Records es p) (irq : UInt8) :
    Records (es ++ [.unmask irq]) (picUnmaskIrq p irq) := by
  have hedges : (picUnmaskIrq p irq).master.edges = p.master.edges ∧
      (picUnmaskIrq p irq).slave.edges = p.slave.edges := by
    rw [h.programmed.picUnmaskIrq_eq]
    split
    · exact ⟨rfl, rfl⟩
    · split <;> exact ⟨rfl, rfl⟩
  have hmask : ∀ n, (PicEvent.unmask n ∈ es ++ [.unmask irq]) ↔ PicEvent.unmask n ∈ es ∨ irq = n := by
    intro n
    rw [List.mem_append, List.mem_singleton, PicEvent.unmask.injEq, eq_comm (a := n)]
  have hedge : ∀ l, (PicEvent.edge l ∈ es ++ [.unmask irq]) ↔ PicEvent.edge l ∈ es := by
    intro l
    simp
  refine ⟨h.programmed.unmask irq, h.programmed.quiet_unmask h.quiet irq, fun k => ?_, fun k => ?_,
    fun k => ?_, fun k => ?_⟩
  · rw [(h.programmed.masked_unmask irq k).1, Bool.and_eq_false_iff, h.masterMask, decide_eq_false_iff_not,
      not_not, hmask]
  · rw [(h.programmed.masked_unmask irq k).2, Bool.and_eq_false_iff, h.slaveMask, decide_eq_false_iff_not,
      not_not, hmask]
  · rw [hedges.1, h.masterEdges, hedge]
  · rw [hedges.2, h.slaveEdges, hedge]

theorem Records.edge {es : List PicEvent} {p : Pair} (h : Records es p) (l : Line) :
    Records (es ++ [.edge l]) (p.edge l) := by
  have hmask : ∀ n, (PicEvent.unmask n ∈ es ++ [.edge l]) ↔ PicEvent.unmask n ∈ es := by
    intro n
    simp
  have hedge : ∀ l', (PicEvent.edge l' ∈ es ++ [.edge l]) ↔ l' = l ∨ PicEvent.edge l' ∈ es := by
    intro l'
    rw [List.mem_append, List.mem_singleton, PicEvent.edge.injEq, or_comm]
  have hupdate : ∀ (f : Fin 8 → Bool) (k k' : Fin 8),
      Function.update f k true k' = true ↔ k' = k ∨ f k' = true := by
    intro f k k'
    rw [Function.update_apply]
    split <;> simp [*]
  refine ⟨h.programmed.edge l, h.quiet.edge l, fun k => ?_, fun k => ?_, fun k => ?_, fun k => ?_⟩
  · rw [hmask, ← h.masterMask]
    cases l <;> rfl
  · rw [hmask, ← h.slaveMask]
    cases l <;> rfl
  · rw [hedge, ← h.masterEdges]
    cases l with
    | first k' =>
      rw [Line.first.injEq]
      exact hupdate _ _ _
    | second k' => exact (or_iff_right (by simp)).symm
  · rw [hedge, ← h.slaveEdges]
    cases l with
    | first k' => exact (or_iff_right (by simp)).symm
    | second k' =>
      rw [Line.second.injEq]
      exact hupdate _ _ _

theorem records_foldl {done : List PicEvent} {p : Pair} (h : Records done p) (es : List PicEvent) :
    Records (done ++ es) (es.foldl picEvent p) := by
  induction es generalizing done p with
  | nil => rwa [List.append_nil]
  | cons e es ih =>
    have hstep : Records (done ++ [e]) (picEvent p e) := by
      cases e with
      | unmask irq => exact h.unmask irq
      | edge l => exact h.edge l
    have hrest := ih hstep
    rwa [List.append_assoc, List.singleton_append] at hrest

/-- The events let the line through: an edge, its own unmask, and for a line of the second controller the
unmask of line 2. Line 2 itself has no device. -/
structure LetThrough (es : List PicEvent) (l : Line) : Prop where
  edge : .edge l ∈ es
  unmask : .unmask (UInt8.ofNat l.number) ∈ es
  device : l ≠ .first 2
  cascade : ∀ k, l = .second k → .unmask 2 ∈ es

theorem Records.asks_iff {es : List PicEvent} {p : Pair} (h : Records es p) (l : Line) :
    p.Asks l ↔ LetThrough es l := by
  cases l with
  | first k =>
    rw [Pair.Asks, Chip.asks, Bool.and_eq_true, Bool.not_eq_true', h.masterEdges, h.masterMask]
    constructor
    · rintro ⟨hk, hedge, hmask⟩
      exact ⟨hedge, hmask, by simpa using hk, by simp⟩
    · rintro ⟨hedge, hmask, hk, -⟩
      exact ⟨by simpa using hk, hedge, hmask⟩
  | second k =>
    rw [Pair.Asks, Chip.asks, Bool.and_eq_true, Bool.not_eq_true', h.slaveEdges, h.slaveMask, h.masterMask]
    constructor
    · rintro ⟨⟨hedge, hmask⟩, htwo⟩
      exact ⟨hedge, hmask, by simp, fun _ _ => htwo⟩
    · rintro ⟨hedge, hmask, -, htwo⟩
      exact ⟨⟨hedge, hmask⟩, htwo k rfl⟩

/-- **What the processor sees after `pic_mask_all`.** Whatever state the controllers were in, and whatever
unmasks and edges follow in whatever order: the processor gets a vector exactly if some line was let
through, and then 32 plus the number of the first of these lines in the order of priorities. -/
theorem accept_after_unmask (p : Pair) (es : List PicEvent) (v : UInt8) :
    (picAfter es p).accept.map Prod.fst = some v ↔ ∃ l, LetThrough es l ∧
      v = 32 + UInt8.ofNat l.number ∧ ∀ l', LetThrough es l' → l.rank ≤ l'.rank := by
  have h : Records es (picAfter es p) := records_foldl (records_picMaskAll p) es
  have hidle := h.programmed.idle h.quiet
  have hvector : ∀ l, (picAfter es p).vector l = some (32 + UInt8.ofNat l.number) := h.programmed.vector_eq
  simp only [← h.asks_iff]
  constructor
  · intro hv
    obtain ⟨⟨v', q⟩, haccept, hfst⟩ := Option.map_eq_some_iff.mp hv
    obtain ⟨l, hl, hmap⟩ := Option.bind_eq_some_iff.mp haccept
    rw [hvector, Option.map_some] at hmap
    cases hmap
    obtain ⟨hasks, hmin⟩ := hidle.pending_eq_some_iff.mp hl
    exact ⟨l, hasks, hfst.symm, hmin⟩
  · rintro ⟨l, hasks, rfl, hmin⟩
    have hl := hidle.pending_eq_some_iff.mpr ⟨hasks, hmin⟩
    rw [Pair.accept, hl, Option.bind_some, hvector]
    rfl

end MinOS.Interrupt
