/-
# MinOS.Keyboard.Delivery — a key's way from the controller to `input_pop`.

Four parties share no lock. The 8042 puts a byte into its output buffer when that is empty and raises line 1;
the interrupt controllers remember the edge; the processor accepts it when no handler runs; `keyboard_irq`
takes the byte, decodes it, pushes the event and ends the interrupt; and the main loop pops events, with
interrupts between its accesses. The local APIC interrupts for the timer, other devices raise their lines,
and a byte may arrive inside the handler.

`Reach` are the states of all interleavings after `keyboard_init`. No byte is lost or read twice, and a byte
in the buffer never waits without an interrupt on its way: the edge is remembered, or a handler that will
read the byte has been entered. What the main loop has popped and what the ring holds are the events of the
bytes read so far, as long as the ring was never full.
-/
import MinOS.Interrupt.Pic
import MinOS.Keyboard.Decode

namespace MinOS.Keyboard

open Pic8259 MinOS.Interrupt
open MinOS.Input (Event)

/-! ## The parties -/

/-- What the processor does -/
inductive Cpu
  /-- the main loop, interrupts on -/
  | main
  /-- a stub, on its way to `irq_dispatch` -/
  | entered (vector : UInt8)
  /-- `keyboard_irq` before `pic_eoi(1)` -/
  | ending
  /-- before `iretq` -/
  | leaving
  deriving DecidableEq, Repr

/-- The controllers, the processor, the 8042's output buffer, the statics of `keyboard.c` and `input.c`; and
what has happened: the bytes the 8042 has sent, the bytes read, the number of pushes that were refused -/
structure Machine where
  pic : Pair
  cpu : Cpu
  buffer : Option UInt8
  decoder : Decoder
  input : Input.System
  sent : List UInt8
  taken : List UInt8
  refused : Nat

/-- `(void)input_push(&event)` -/
def pushed (event : Event) (m : Machine) : Machine :=
  if (Input.inputPush (some event) m.input.queue).1 = 0 then
    { m with input := { m.input with
        queue := (Input.inputPush (some event) m.input.queue).2
        accepted := m.input.accepted ++ [event] } }
  else
    { m with
      input := { m.input with queue := (Input.inputPush (some event) m.input.queue).2 }
      refused := m.refused + 1 }

/-- `keyboard_irq` with the output buffer full, up to `pic_eoi(1)` -/
def takeByte (data : UInt8) (m : Machine) : Machine :=
  let m' := (keyboardIrq 1 data m.decoder).1.foldl (fun m event => pushed event m) m
  { m' with
    cpu := .ending
    buffer := none
    decoder := (keyboardIrq 1 data m.decoder).2
    taken := m.taken ++ [data] }

/-- What can happen next -/
inductive Step : Machine → Machine → Prop
  | send (m : Machine) (data : UInt8) (h : m.buffer = none) :
      Step m { m with
        buffer := some data
        pic := m.pic.edge (.first 1)
        sent := m.sent ++ [data] }
  | edge (m : Machine) (l : Line) : Step m { m with pic := m.pic.edge l }
  | accept (m : Machine) (vector : UInt8) (pic : Pair) (hcpu : m.cpu = .main)
      (h : m.pic.accept = some (vector, pic)) : Step m { m with pic, cpu := .entered vector }
  /-- the local APIC's timer -/
  | timer (m : Machine) (hcpu : m.cpu = .main) : Step m { m with cpu := .entered 32 }
  /-- `irq_dispatch` calls `timer_irq`, or nothing -/
  | other (m : Machine) (vector : UInt8) (hcpu : m.cpu = .entered vector) (hvector : vector ≠ 33) :
      Step m { m with cpu := .leaving }
  /-- `keyboard_irq` finds the output buffer empty -/
  | none (m : Machine) (hcpu : m.cpu = .entered 33) (h : m.buffer = none) : Step m { m with cpu := .ending }
  | take (m : Machine) (data : UInt8) (hcpu : m.cpu = .entered 33) (h : m.buffer = some data) :
      Step m (takeByte data m)
  | eoi (m : Machine) (hcpu : m.cpu = .ending) : Step m { m with pic := picEoi 1 m.pic, cpu := .leaving }
  | iret (m : Machine) (hcpu : m.cpu = .leaving) : Step m { m with cpu := .main }
  /-- an access of `input_pop`, which accepts nothing -/
  | pop (m : Machine) (input : Input.System) (hcpu : m.cpu = .main) (h : Input.Step m.input input)
      (hpop : input.accepted = m.input.accepted) : Step m { m with input }

/-- `pic_mask_all`, any edges, and the `pic_unmask_irq(1)` that ends `keyboard_init` -/
def openedKeyboard (edges : List Line) (p : Pair) : Pair :=
  picAfter (edges.map .edge ++ [.unmask 1]) p

/-- The state after `keyboard_init`, whatever state the controllers and the queue were in -/
def Machine.start (edges : List Line) (p : Pair) (q : Input.Queue) : Machine where
  pic := openedKeyboard edges p
  cpu := .main
  buffer := none
  decoder := Decoder.start
  input := Input.System.start q
  sent := []
  taken := []
  refused := 0

/-- The states of all interleavings -/
inductive Reach : Machine → Prop
  | start (edges : List Line) (p : Pair) (q : Input.Queue) : Reach (Machine.start edges p q)
  | step {m m' : Machine} (h : Reach m) (hstep : Step m m') : Reach m'

/-! ## The interrupt controllers -/

/-- Only line 1 is open. -/
structure OnlyKeyboard (p : Pair) : Prop where
  programmed : Programmed p
  master : ∀ k : Fin 8, p.master.masked k = false ↔ k = 1
  slave : ∀ k : Fin 8, p.slave.masked k = true

/-- Line 1 is in service and nothing else. -/
structure ServesKeyboard (p : Pair) : Prop where
  master : p.master.inService = Function.update (fun _ => false) 1 true
  slave : ∀ k, p.slave.inService k = false

/-- What is in service while the processor is at this point: line 1 from the acceptance of its interrupt
until `pic_eoi(1)` -/
def Serving : Cpu → Pair → Prop
  | .main, p | .leaving, p => Quiet p
  | .ending, p => ServesKeyboard p
  | .entered vector, p => if vector = 33 then ServesKeyboard p else Quiet p

theorem onlyKeyboard_opened (edges : List Line) (p : Pair) :
    OnlyKeyboard (openedKeyboard edges p) ∧ Quiet (openedKeyboard edges p) := by
  have h : Records (edges.map .edge ++ [.unmask 1]) (openedKeyboard edges p) :=
    records_foldl (records_picMaskAll p) _
  have hmem : ∀ n, (PicEvent.unmask n ∈ edges.map .edge ++ [.unmask 1]) ↔ n = 1 := by
    intro n
    simp
  have hone : ∀ k : Fin 8, (UInt8.ofNat k = 1 ↔ k = 1) ∧ UInt8.ofNat (8 + k) ≠ 1 := by decide
  refine ⟨⟨h.programmed, fun k => ?_, fun k => ?_⟩, h.quiet⟩
  · rw [h.masterMask, hmem, (hone k).1]
  · rw [← Bool.not_eq_false, h.slaveMask, hmem]
    exact (hone k).2

section Pic

variable {p : Pair} (h : OnlyKeyboard p)
include h

/-- Line 1 is the only one that can ask. -/
theorem OnlyKeyboard.asks_iff (l : Line) : p.Asks l ↔ l = .first 1 ∧ p.master.edges 1 = true := by
  cases l with
  | first k =>
    rw [Pair.Asks, Chip.asks, Bool.and_eq_true, Bool.not_eq_true', h.master, Line.first.injEq]
    constructor
    · rintro ⟨-, hedge, rfl⟩
      exact ⟨rfl, hedge⟩
    · rintro ⟨rfl, hedge⟩
      exact ⟨by decide, hedge, rfl⟩
  | second k =>
    rw [Pair.Asks, Chip.asks, h.slave, Bool.not_true, Bool.and_false]
    constructor
    · rintro ⟨hk, -⟩
      cases hk
    · rintro ⟨hk, -⟩
      cases hk

/-- **With nothing in service the processor gets vector 33, exactly when line 1 has an edge.** -/
theorem OnlyKeyboard.accept_eq (hquiet : Quiet p) : p.accept
    = if p.master.edges 1 = true then some (33, p.serve (.first 1)) else none := by
  have hidle := h.programmed.idle hquiet
  split
  · rename_i hedge
    have hpending : p.pending = some (.first 1) := by
      rw [hidle.pending_eq_some_iff]
      refine ⟨(h.asks_iff _).mpr ⟨rfl, hedge⟩, fun l' hl' => ?_⟩
      rw [((h.asks_iff l').mp hl').1]
    rw [Pair.accept, hpending, Option.bind_some, h.programmed.vector_eq]
    rfl
  · rename_i hedge
    cases hpending : p.pending with
    | none => rw [Pair.accept, hpending, Option.bind_none]
    | some l =>
      have hasks := (hidle.pending_eq_some_iff.mp hpending).1
      exact absurd ((h.asks_iff l).mp hasks).2 hedge

theorem OnlyKeyboard.edge (l : Line) : OnlyKeyboard (p.edge l) := by
  refine ⟨h.programmed.edge l, ?_, ?_⟩
  · cases l <;> exact h.master
  · cases l <;> exact h.slave

/-- Accepting line 1 -/
theorem OnlyKeyboard.serve (hquiet : Quiet p) :
    OnlyKeyboard (p.serve (.first 1)) ∧ Serving (.entered 33) (p.serve (.first 1)) := by
  obtain ⟨h1, h2, h3, h4, h5, h6, h7, h8, h9, h10⟩ := h.programmed
  refine ⟨⟨⟨h1, h2, h3, h4, h5, h6, h7, h8, h9, h10⟩, h.master, h.slave⟩, ?_⟩
  rw [Serving, if_pos rfl]
  refine ⟨?_, hquiet.slave⟩
  show Function.update p.master.inService 1 (!p.master.autoEoi) = _
  rw [h9, funext hquiet.master]
  rfl

/-- Ending the interrupt of line 1 -/
theorem OnlyKeyboard.eoi (hserving : Serving .ending p) :
    OnlyKeyboard (picEoi 1 p) ∧ Quiet (picEoi 1 p) ∧ (picEoi 1 p).master.edges = p.master.edges := by
  have heoi : picEoi 1 p = { p with master := { p.master with inService := fun _ => false } } := by
    show { p with master := p.master.command 0x20 } = _
    rw [Chip.command_eoi hserving.1]
  rw [heoi]
  obtain ⟨h1, h2, h3, h4, h5, h6, h7, h8, h9, h10⟩ := h.programmed
  exact ⟨⟨⟨h1, h2, h3, h4, h5, h6, h7, h8, h9, h10⟩, h.master, h.slave⟩, ⟨fun _ => rfl, hserving.2⟩, rfl⟩

end Pic

/-- An edge puts nothing in service … -/
theorem Serving.edge {cpu : Cpu} {p : Pair} (h : Serving cpu p) (l : Line) : Serving cpu (p.edge l) := by
  have hmaster : (p.edge l).master.inService = p.master.inService := by cases l <;> rfl
  have hslave : (p.edge l).slave.inService = p.slave.inService := by cases l <;> rfl
  cases cpu with
  | main => exact Quiet.edge h l
  | leaving => exact Quiet.edge h l
  | ending => exact ⟨hmaster.trans h.1, fun k => (congrFun hslave k).trans (h.2 k)⟩
  | entered vector =>
    rw [Serving] at h ⊢
    split
    · rename_i hvector
      rw [if_pos hvector] at h
      exact ⟨hmaster.trans h.1, fun k => (congrFun hslave k).trans (h.2 k)⟩
    · rename_i hvector
      rw [if_neg hvector] at h
      exact Quiet.edge h l

/-- … and forgets none. -/
theorem edges_one_edge (p : Pair) (l : Line) (h : p.master.edges 1 = true ∨ l = .first 1) :
    (p.edge l).master.edges 1 = true := by
  cases l with
  | first k =>
    show Function.update p.master.edges k true 1 = true
    rcases eq_or_ne 1 k with rfl | hne
    · exact Function.update_self _ _ _
    · rw [Function.update_of_ne hne]
      exact h.resolve_right fun hk => hne (Line.first.inj hk).symm
  | second k => exact h.resolve_right nofun

/-! ## Every interleaving -/

/-- The invariant. A byte in the buffer has its edge remembered, or a handler that will read it has been
entered. -/
structure Sound (m : Machine) : Prop where
  pic : OnlyKeyboard m.pic
  serving : Serving m.cpu m.pic
  vectors : ∀ vector, m.cpu = .entered vector → vector = 32 ∨ vector = 33
  awake : m.buffer ≠ none → m.pic.master.edges 1 = true ∨ m.cpu = .entered 33
  stream : m.sent = m.taken ++ m.buffer.toList
  decoder : m.decoder = (feed m.taken Decoder.start).2
  events : m.input.accepted.Sublist (feed m.taken Decoder.start).1
  count : (feed m.taken Decoder.start).1.length = m.input.accepted.length + m.refused
  queue : Input.Reach m.input

theorem sound_start (edges : List Line) (p : Pair) (q : Input.Queue) : Sound (Machine.start edges p q) := by
  obtain ⟨hpic, hquiet⟩ := onlyKeyboard_opened edges p
  refine ⟨hpic, hquiet, ?_, fun hne => absurd rfl hne, rfl, rfl, List.Sublist.refl _, rfl, .start q⟩
  intro vector hcpu
  cases hcpu

/-- Events pushed one after the other: all of them offered in order, each accepted or refused -/
structure Pushes (events : List Event) (m m' : Machine) : Prop where
  accepted : ∃ kept, kept.Sublist events ∧ m'.input.accepted = m.input.accepted ++ kept ∧
    events.length + m.refused = kept.length + m'.refused
  reach : Input.Reach m.input → Input.Reach m'.input
  same : m'.pic = m.pic ∧ m'.sent = m.sent ∧ m'.taken = m.taken

theorem pushes_foldl (events : List Event) (m : Machine) :
    Pushes events m (events.foldl (fun m event => pushed event m) m) := by
  induction events generalizing m with
  | nil => exact ⟨⟨[], List.Sublist.refl _, by simp, rfl⟩, id, rfl, rfl, rfl⟩
  | cons event events ih =>
    obtain ⟨⟨kept, hsub, hacc, hlen⟩, hreach, hpic, hsent, htaken⟩ := ih (pushed event m)
    rw [List.foldl_cons]
    by_cases hok : (Input.inputPush (some event) m.input.queue).1 = 0
    · rw [pushed, if_pos hok] at hacc hlen hreach hpic hsent htaken
      refine ⟨⟨event :: kept, hsub.cons_cons event, ?_, ?_⟩, fun h => ?_, ?_, ?_, ?_⟩
      · rw [pushed, if_pos hok, hacc, List.append_assoc, List.singleton_append]
      · rw [pushed, if_pos hok]
        simp only [List.length_cons] at hlen ⊢
        omega
      · rw [pushed, if_pos hok]
        exact hreach (h.step (Input.Step.accept m.input event hok))
      · rw [pushed, if_pos hok, hpic]
      · rw [pushed, if_pos hok, hsent]
      · rw [pushed, if_pos hok, htaken]
    · rw [pushed, if_neg hok] at hacc hlen hreach hpic hsent htaken
      refine ⟨⟨kept, hsub.cons event, ?_, ?_⟩, fun h => ?_, ?_, ?_, ?_⟩
      · rw [pushed, if_neg hok, hacc]
      · rw [pushed, if_neg hok]
        simp only [List.length_cons] at hlen ⊢
        omega
      · rw [pushed, if_neg hok]
        exact hreach (h.step (Input.Step.refuse m.input event hok))
      · rw [pushed, if_neg hok, hpic]
      · rw [pushed, if_neg hok, hsent]
      · rw [pushed, if_neg hok, htaken]

/-- The handler reads the byte. -/
theorem Sound.take {m : Machine} (h : Sound m) {data : UInt8} (hcpu : m.cpu = .entered 33)
    (hbuffer : m.buffer = some data) : Sound (takeByte data m) := by
  obtain ⟨⟨kept, hsub, hacc, hlen⟩, hreach, hpic, hsent, htaken⟩ :=
    pushes_foldl (keyboardIrq 1 data m.decoder).1 m
  have hfeed : feed (m.taken ++ [data]) Decoder.start
      = ((feed m.taken Decoder.start).1 ++ (keyboardIrq 1 data m.decoder).1,
          (keyboardIrq 1 data m.decoder).2) := by
    rw [feed_append, ← h.decoder]
    simp only [feed, List.append_nil]
  have hserving := h.serving
  rw [hcpu, Serving, if_pos rfl] at hserving
  have hcount := h.count
  unfold takeByte
  refine ⟨?_, ?_, ?_, ?_, ?_, ?_, ?_, ?_, hreach h.queue⟩
  · exact hpic ▸ h.pic
  · exact hpic ▸ hserving
  · intro vector hending
    cases hending
  · exact fun hne => absurd rfl hne
  · dsimp only
    rw [hsent, h.stream, hbuffer]
    simp
  · dsimp only
    rw [hfeed]
  · dsimp only
    rw [hfeed, hacc]
    exact h.events.append hsub
  · dsimp only
    rw [hfeed, hacc, List.length_append, List.length_append]
    omega

/-- **Every step keeps the invariant.** -/
theorem Sound.step {m m' : Machine} (h : Sound m) (hstep : Step m m') : Sound m' := by
  have hserving := h.serving
  cases hstep with
  | send data hbuffer =>
    refine ⟨h.pic.edge (.first 1), hserving.edge (.first 1), h.vectors,
      fun _ => Or.inl (edges_one_edge _ _ (Or.inr rfl)), ?_, h.decoder, h.events, h.count, h.queue⟩
    dsimp only
    rw [h.stream, hbuffer]
    simp
  | edge l =>
    refine ⟨h.pic.edge l, hserving.edge l, h.vectors, fun hne => ?_, h.stream, h.decoder, h.events,
      h.count, h.queue⟩
    exact (h.awake hne).imp_left fun hedge => edges_one_edge _ _ (Or.inl hedge)
  | accept vector pic hcpu haccept =>
    rw [hcpu] at hserving
    rw [h.pic.accept_eq hserving] at haccept
    split at haccept
    · obtain ⟨rfl, rfl⟩ := Prod.mk.inj (Option.some.inj haccept)
      obtain ⟨hpic, hserves⟩ := h.pic.serve hserving
      refine ⟨hpic, hserves, ?_, fun _ => Or.inr rfl, h.stream, h.decoder, h.events, h.count, h.queue⟩
      intro vector hvector
      exact Or.inr (Cpu.entered.inj hvector).symm
    · cases haccept
  | timer hcpu =>
    rw [hcpu] at hserving
    refine ⟨h.pic, ?_, ?_, fun hne => Or.inl ?_, h.stream, h.decoder, h.events, h.count, h.queue⟩
    · show Serving (.entered 32) m.pic
      rw [Serving, if_neg (by decide)]
      exact hserving
    · intro vector hvector
      exact Or.inl (Cpu.entered.inj hvector).symm
    · exact (h.awake hne).resolve_right fun hentered => by rw [hcpu] at hentered; cases hentered
  | other vector hcpu hvector =>
    rw [hcpu, Serving, if_neg hvector] at hserving
    refine ⟨h.pic, hserving, ?_, fun hne => Or.inl ?_, h.stream, h.decoder, h.events, h.count, h.queue⟩
    · intro vector' hleaving
      cases hleaving
    · refine (h.awake hne).resolve_right fun hentered => ?_
      rw [hcpu] at hentered
      exact hvector (Cpu.entered.inj hentered)
  | none hcpu hbuffer =>
    rw [hcpu, Serving, if_pos rfl] at hserving
    refine ⟨h.pic, hserving, ?_, fun hne => absurd hbuffer hne, h.stream, h.decoder, h.events, h.count,
      h.queue⟩
    intro vector hending
    cases hending
  | take data hcpu hbuffer => exact h.take hcpu hbuffer
  | eoi hcpu =>
    rw [hcpu] at hserving
    obtain ⟨hpic, hquiet, hedges⟩ := h.pic.eoi hserving
    refine ⟨hpic, hquiet, ?_, fun hne => Or.inl ?_, h.stream, h.decoder, h.events, h.count, h.queue⟩
    · intro vector hleaving
      cases hleaving
    · dsimp only
      rw [hedges]
      exact (h.awake hne).resolve_right fun hentered => by rw [hcpu] at hentered; cases hentered
  | iret hcpu =>
    rw [hcpu] at hserving
    refine ⟨h.pic, hserving, ?_, fun hne => Or.inl ?_, h.stream, h.decoder, h.events, h.count, h.queue⟩
    · intro vector hmain
      cases hmain
    · exact (h.awake hne).resolve_right fun hentered => by rw [hcpu] at hentered; cases hentered
  | pop input hcpu hpop haccepted =>
    refine ⟨h.pic, hserving, h.vectors, h.awake, h.stream, h.decoder, ?_, ?_, h.queue.step hpop⟩
    · dsimp only
      rw [haccepted]
      exact h.events
    · dsimp only
      rw [haccepted]
      exact h.count

theorem Reach.sound {m : Machine} (h : Reach m) : Sound m := by
  induction h with
  | start edges p q => exact sound_start edges p q
  | step _ hstep ih => exact ih.step hstep

/-- **From the controller to `input_pop`.** In every state of every interleaving of the 8042, other devices,
the timer, the handlers and the main loop: the bytes sent are those read and the one in the buffer; with a
byte in the buffer and no handler running the processor is about to get vector 33, and it never gets another
one from the controllers; what the ring accepted is a selection of the events of the bytes read, one missing
for each push that was refused; and if none was refused the events popped and those in the ring are exactly
the events of the bytes read, in order. -/
theorem keyboard_delivery (m : Machine) (h : Reach m) :
    m.sent = m.taken ++ m.buffer.toList ∧
    (m.cpu = .main → m.buffer ≠ none → m.pic.accept.map Prod.fst = some 33) ∧
    (m.cpu = .main → ∀ vector pic, m.pic.accept = some (vector, pic) → vector = 33) ∧
    m.input.accepted.Sublist (feed m.taken Decoder.start).1 ∧
    (feed m.taken Decoder.start).1.length = m.input.accepted.length + m.refused ∧
    (m.refused = 0 → m.input.popped ++ m.input.queue.contents = (feed m.taken Decoder.start).1) := by
  have hs := h.sound
  refine ⟨hs.stream, fun hcpu hne => ?_, fun hcpu vector pic haccept => ?_, hs.events, hs.count,
    fun hnone => ?_⟩
  · have hquiet := hs.serving
    rw [hcpu] at hquiet
    have hedge := (hs.awake hne).resolve_right fun hentered => by rw [hcpu] at hentered; cases hentered
    rw [hs.pic.accept_eq hquiet, if_pos hedge]
    rfl
  · have hquiet := hs.serving
    rw [hcpu] at hquiet
    rw [hs.pic.accept_eq hquiet] at haccept
    split at haccept
    · exact (Prod.mk.inj (Option.some.inj haccept)).1.symm
    · cases haccept
  · have hcount := hs.count
    rw [← hs.queue.fifo.contents]
    exact hs.events.eq_of_length (by omega)

/-- The state of controllers nothing is known of -/
def someChip : Chip := ⟨.icw3, true, false, 0x70, 0xFF, false, true, 0x12, fun _ => true, fun _ => true⟩

/-- The first byte arrives, while line 4 of the second controller has had an edge. -/
theorem keyboard_delivery_first : ∃ m, Reach m ∧ m.cpu = .main ∧ m.buffer = some 0x1E ∧
    m.pic.accept.map Prod.fst = some 33 := by
  have hreach := (Reach.start [.second 4] ⟨someChip, someChip⟩ ⟨fun _ => Input.keyA, 0, 0⟩).step
    (Step.send _ 0x1E rfl)
  obtain ⟨-, hawake, -⟩ := keyboard_delivery _ hreach
  exact ⟨_, hreach, rfl, rfl, hawake rfl nofun⟩

end MinOS.Keyboard
