/-
# MinOS.Input — the event queue `kernel/input.c`, with the keyboard interrupt.

The queue is a ring of 64 slots of which one stays empty. `input_push` runs in the keyboard interrupt, with
no other code in between; `input_pop` runs in the main loop, and an interrupt may come between any two of
its three accesses: the test for an empty queue, the copy of the event, the update of the read index.

`Reach` are the states of all such interleavings. Beside the queue a state records the events that were
accepted and those that were popped: the invariant is that they differ by the contents of the ring.
-/
import Mathlib.Logic.Function.Basic
import Mathlib.Data.List.Infix
import MinOS.Lib.Ring

namespace MinOS.Input

/-! ## Events -/

/-- `enum input_key` -/
inductive Key
  | none
  | a | b | c | d | e | f | g | h | i | j | k | l | m | n | o | p | q | r | s | t | u | v | w | x | y | z
  | digit0 | digit1 | digit2 | digit3 | digit4 | digit5 | digit6 | digit7 | digit8 | digit9
  | minus | equals | leftBracket | rightBracket | backslash | semicolon | apostrophe | grave | comma
  | period | slash | kpStar | kpMinus | kpPlus
  | space | enter | backspace | tab | escape | leftShift | rightShift | leftCtrl | rightCtrl | leftAlt
  | rightAlt | capsLock
  | left | right | up | down
  deriving DecidableEq, Repr

/-- `struct input_event`; `character` is a byte -/
structure Event where
  key : Key
  pressed : UInt8
  modifiers : UInt8
  character : UInt8
  deriving DecidableEq, Repr

/-! ## The queue -/

/-- `INPUT_QUEUE_SIZE` -/
def queueSize : UInt32 := 64

/-- The statics of `input.c` -/
structure Queue where
  slots : UInt32 → Event
  readIndex : UInt32
  writeIndex : UInt32

/-- `input_init` -/
def inputInit (q : Queue) : Queue := { q with readIndex := 0, writeIndex := 0 }

/-- `input_push`; the event is `none` for a NULL pointer -/
def inputPush (event : Option Event) (q : Queue) : Int × Queue :=
  match event with
  | none => (-1, q)
  | some event =>
    let next := (q.writeIndex + 1) % queueSize
    if next = q.readIndex then (-1, q)
    else (0, { q with slots := Function.update q.slots q.writeIndex event, writeIndex := next })

/-- The test of `input_pop`, which returns -1 if it is true; `event` is where the event is to go -/
def popRefused (event : UInt64) (q : Queue) : Bool := event = 0 || q.readIndex = q.writeIndex

/-- The copy of `input_pop` -/
def popCopy (q : Queue) : Event := q.slots q.readIndex

/-- The last statement of `input_pop` -/
def popRelease (q : Queue) : Queue := { q with readIndex := (q.readIndex + 1) % queueSize }

/-- `input_pop` without an interrupt: its result, the event stored, and the queue -/
def inputPop (event : UInt64) (q : Queue) : Int × Option Event × Queue :=
  if popRefused event q then (-1, none, q) else (0, some (popCopy q), popRelease q)

/-! ## Interleavings -/

/-- How far the running `input_pop` is -/
inductive Pop
  | idle
  | tested
  | copied (event : Event)
  deriving DecidableEq, Repr

/-- The queue, the running `input_pop`, the events whose push returned 0, and the events popped -/
structure System where
  queue : Queue
  pop : Pop
  accepted : List Event
  popped : List Event

/-- After `input_init` -/
def System.start (q : Queue) : System := ⟨inputInit q, .idle, [], []⟩

/-- One access of `input_pop`, or one `input_push` -/
inductive Step : System → System → Prop
  | accept (σ : System) (event : Event) (h : (inputPush (some event) σ.queue).1 = 0) :
      Step σ { σ with
        queue := (inputPush (some event) σ.queue).2
        accepted := σ.accepted ++ [event] }
  | refuse (σ : System) (event : Event) (h : (inputPush (some event) σ.queue).1 ≠ 0) :
      Step σ { σ with queue := (inputPush (some event) σ.queue).2 }
  | empty (σ : System) (dest : UInt64) (hdest : dest ≠ 0) (hpop : σ.pop = .idle)
      (h : popRefused dest σ.queue = true) : Step σ σ
  | test (σ : System) (dest : UInt64) (hdest : dest ≠ 0) (hpop : σ.pop = .idle)
      (h : popRefused dest σ.queue = false) : Step σ { σ with pop := .tested }
  | copy (σ : System) (hpop : σ.pop = .tested) : Step σ { σ with pop := .copied (popCopy σ.queue) }
  | release (σ : System) (event : Event) (hpop : σ.pop = .copied event) :
      Step σ { σ with
        queue := popRelease σ.queue
        pop := .idle
        popped := σ.popped ++ [event] }

/-- The states reached from `input_init`, over any contents of the slots -/
inductive Reach : System → Prop
  | start (q : Queue) : Reach (System.start q)
  | step {σ τ : System} (h : Reach σ) (hstep : Step σ τ) : Reach τ

/-- The three steps of `input_pop` with nothing between them are `input_pop`. -/
theorem inputPop_steps (σ : System) (dest : UInt64) (hdest : dest ≠ 0) (hpop : σ.pop = .idle)
    (h : popRefused dest σ.queue = false) :
    ∃ τ₁ τ₂ τ₃ event, Step σ τ₁ ∧ Step τ₁ τ₂ ∧ Step τ₂ τ₃ ∧
      inputPop dest σ.queue = (0, some event, τ₃.queue) ∧ τ₃.popped = σ.popped ++ [event] := by
  refine ⟨_, _, _, _, Step.test σ dest hdest hpop h, Step.copy _ rfl, Step.release _ _ rfl, ?_, rfl⟩
  unfold inputPop
  rw [h]
  rfl

/-! ## The ring -/

/-- The slots by number -/
def Queue.slot (q : Queue) (i : Nat) : Event := q.slots (UInt32.ofNat i)

/-- How many events are queued -/
def Queue.count (q : Queue) : Nat := (q.writeIndex.toNat + 64 - q.readIndex.toNat) % 64

/-- The events queued, oldest first -/
def Queue.contents (q : Queue) : List Event := Ring.window q.slot 64 q.readIndex.toNat q.count

/-- Both indices are in the array. -/
structure Queue.Bounded (q : Queue) : Prop where
  read : q.readIndex.toNat < 64
  write : q.writeIndex.toNat < 64

theorem toNat_next (i : UInt32) : ((i + 1) % queueSize).toNat = (i.toNat + 1) % 64 := by
  have hsize : queueSize.toNat = 64 := rfl
  rw [UInt32.toNat_mod, UInt32.toNat_add, UInt32.toNat_one, hsize]
  omega

theorem Queue.count_lt (q : Queue) : q.count < 64 := Nat.mod_lt _ (by decide)

theorem Queue.write_eq {q : Queue} (hq : q.Bounded) :
    (q.readIndex.toNat + q.count) % 64 = q.writeIndex.toNat := by
  have hr := hq.read
  have hw := hq.write
  unfold Queue.count
  omega

/-- The queue is full exactly when it holds 63 events. -/
theorem next_eq_read_iff {q : Queue} (hq : q.Bounded) :
    (q.writeIndex + 1) % queueSize = q.readIndex ↔ q.count = 63 := by
  have hr := hq.read
  have hw := hq.write
  rw [← UInt32.toNat_inj, toNat_next _]
  unfold Queue.count
  omega

/-- It is empty exactly when the indices are equal. -/
theorem read_eq_write_iff {q : Queue} (hq : q.Bounded) :
    q.readIndex = q.writeIndex ↔ q.count = 0 := by
  have hr := hq.read
  have hw := hq.write
  rw [← UInt32.toNat_inj]
  unfold Queue.count
  omega

/-! ## What each operation does to the contents -/

/-- **A push is refused exactly when 63 events are queued.** -/
theorem inputPush_refused_iff {q : Queue} (hq : q.Bounded) (event : Event) :
    (inputPush (some event) q).1 = -1 ↔ q.count = 63 := by
  rw [← next_eq_read_iff hq]
  simp only [inputPush]
  split
  · rename_i hfull
    exact ⟨fun _ => hfull, fun _ => rfl⟩
  · rename_i hfull
    exact ⟨fun (h : (0 : Int) = -1) => absurd h (by decide), fun h => absurd h hfull⟩

theorem inputPush_refused {q : Queue} {event : Event} (h : (inputPush (some event) q).1 ≠ 0) :
    (inputPush (some event) q).2 = q := by
  simp only [inputPush] at *
  split
  · rfl
  · rename_i hfull
    rw [if_neg hfull] at h
    exact absurd rfl h

/-- **A push that is accepted puts the event at the end.** -/
theorem inputPush_accepted {q : Queue} {event : Event} (hq : q.Bounded)
    (h : (inputPush (some event) q).1 = 0) :
    (inputPush (some event) q).2.Bounded ∧
      (inputPush (some event) q).2.contents = q.contents ++ [event] := by
  have hfull : ¬ (q.writeIndex + 1) % queueSize = q.readIndex := by
    intro hfull
    simp only [inputPush, if_pos hfull] at h
    exact absurd h (by decide)
  have hcount : q.count ≠ 63 := fun hcount => hfull ((next_eq_read_iff hq).mpr hcount)
  have hlt := q.count_lt
  have hr := hq.read
  have hw := hq.write
  have hnext := toNat_next q.writeIndex
  simp only [inputPush, if_neg hfull]
  generalize hq' : ({ q with slots := Function.update q.slots q.writeIndex event,
                             writeIndex := (q.writeIndex + 1) % queueSize } : Queue) = q'
  have hread : q'.readIndex = q.readIndex := by rw [← hq']
  have hwrite : q'.writeIndex.toNat = (q.writeIndex.toNat + 1) % 64 := by rw [← hq', hnext]
  have hcount' : q'.count = q.count + 1 := by
    unfold Queue.count at *
    rw [hread, hwrite]
    omega
  refine ⟨⟨by rw [hread]; exact hr, by rw [hwrite]; omega⟩, ?_⟩
  unfold Queue.contents
  rw [hread, hcount']
  apply Ring.window_push (by omega)
  · rw [q.write_eq hq, ← hq']
    show Function.update q.slots q.writeIndex event (UInt32.ofNat q.writeIndex.toNat) = event
    rw [UInt32.ofNat_toNat, Function.update_self]
  · intro i hi hne
    rw [q.write_eq hq] at hne
    rw [← hq']
    apply Function.update_of_ne
    intro hsame
    apply hne
    rw [← hsame, UInt32.toNat_ofNat']
    omega

/-- **The update of the read index drops the oldest event, which is the one that was copied.** -/
theorem popRelease_contents {q : Queue} (hq : q.Bounded) (hcount : q.count ≠ 0) :
    (popRelease q).Bounded ∧ q.contents = popCopy q :: (popRelease q).contents := by
  have hr := hq.read
  have hw := hq.write
  have hnext : (popRelease q).readIndex.toNat = (q.readIndex.toNat + 1) % 64 := toNat_next _
  have hwrite : (popRelease q).writeIndex = q.writeIndex := rfl
  have hsucc : q.count = (popRelease q).count + 1 := by
    unfold Queue.count at *
    rw [hnext, hwrite]
    omega
  refine ⟨⟨by rw [hnext]; omega, hw⟩, ?_⟩
  have hcopy : popCopy q = q.slot (q.readIndex.toNat % 64) := by
    unfold popCopy Queue.slot
    rw [Nat.mod_eq_of_lt hr, UInt32.ofNat_toNat]
  rw [hcopy]
  unfold Queue.contents
  rw [hsucc, Ring.window_pop, hnext]
  rfl

/-! ## Every interleaving -/

/-- The invariant: what was accepted is what was popped and what is queued. A pop that has tested finds an
event, and the event it has copied is still the oldest. -/
structure Fifo (σ : System) : Prop where
  bounded : σ.queue.Bounded
  contents : σ.accepted = σ.popped ++ σ.queue.contents
  pending : σ.pop ≠ .idle → σ.queue.count ≠ 0
  copied : ∀ event, σ.pop = .copied event → event = popCopy σ.queue

/-- A push does not change the event that is the oldest. -/
theorem popCopy_inputPush {q : Queue} {event : Event} (hq : q.Bounded)
    (h : (inputPush (some event) q).1 = 0) (hcount : q.count ≠ 0) :
    popCopy (inputPush (some event) q).2 = popCopy q ∧ (inputPush (some event) q).2.count ≠ 0 := by
  obtain ⟨hq', hcontents⟩ := inputPush_accepted hq h
  have hlen : (inputPush (some event) q).2.count = q.count + 1 := by
    have := congrArg List.length hcontents
    unfold Queue.contents at this
    rwa [Ring.length_window, List.length_append, Ring.length_window] at this
  have hpos : (inputPush (some event) q).2.count ≠ 0 := by omega
  -- both are the head of the contents
  rw [(popRelease_contents hq hcount).2, (popRelease_contents hq' hpos).2] at hcontents
  exact ⟨(List.cons.inj hcontents).1, hpos⟩

theorem Fifo.start (q : Queue) : Fifo (System.start q) := by
  have hcount : (inputInit q).count = 0 := by
    show ((0 : UInt32).toNat + 64 - (0 : UInt32).toNat) % 64 = 0
    decide
  have hread : (inputInit q).readIndex.toNat < 64 := show (0 : UInt32).toNat < 64 by decide
  have hwrite : (inputInit q).writeIndex.toNat < 64 := show (0 : UInt32).toNat < 64 by decide
  refine ⟨⟨hread, hwrite⟩, ?_, fun h => absurd rfl h, nofun⟩
  show [] = [] ++ (inputInit q).contents
  unfold Queue.contents
  rw [hcount]
  rfl

theorem Fifo.accept {σ : System} (h : Fifo σ) {event : Event}
    (haccept : (inputPush (some event) σ.queue).1 = 0) :
    Fifo { σ with queue := (inputPush (some event) σ.queue).2, accepted := σ.accepted ++ [event] } := by
  obtain ⟨hbounded, hcontents⟩ := inputPush_accepted h.bounded haccept
  refine ⟨hbounded, ?_, ?_, ?_⟩
  · show σ.accepted ++ [event] = σ.popped ++ (inputPush (some event) σ.queue).2.contents
    rw [hcontents, h.contents, List.append_assoc]
  · intro hpop
    exact (popCopy_inputPush h.bounded haccept (h.pending hpop)).2
  · intro copied hpop
    have hidle : σ.pop ≠ .idle := by
      intro hidle
      exact Pop.noConfusion (hidle.symm.trans hpop)
    show copied = popCopy (inputPush (some event) σ.queue).2
    rw [(popCopy_inputPush h.bounded haccept (h.pending hidle)).1]
    exact h.copied copied hpop

theorem Fifo.release {σ : System} (h : Fifo σ) {event : Event} (hpop : σ.pop = .copied event) :
    Fifo { σ with queue := popRelease σ.queue, pop := .idle, popped := σ.popped ++ [event] } := by
  have hidle : σ.pop ≠ .idle := by
    intro hidle
    exact Pop.noConfusion (hidle.symm.trans hpop)
  obtain ⟨hbounded, hcontents⟩ := popRelease_contents h.bounded (h.pending hidle)
  refine ⟨hbounded, ?_, fun hne => absurd rfl hne, nofun⟩
  show σ.accepted = σ.popped ++ [event] ++ (popRelease σ.queue).contents
  rw [h.contents, hcontents, h.copied event hpop, List.append_assoc]
  rfl

/-- **Every step keeps the invariant.** -/
theorem Fifo.step {σ τ : System} (h : Fifo σ) (hstep : Step σ τ) : Fifo τ := by
  cases hstep with
  | accept event haccept => exact h.accept haccept
  | refuse event hrefuse =>
    rw [inputPush_refused hrefuse]
    exact h
  | empty dest hdest hpop hempty => exact h
  | test dest hdest hpop hfound =>
    refine ⟨h.bounded, h.contents, fun _ => ?_, nofun⟩
    rw [popRefused, Bool.or_eq_false_iff, decide_eq_false_iff_not, decide_eq_false_iff_not,
      read_eq_write_iff h.bounded] at hfound
    exact hfound.2
  | copy hpop =>
    refine ⟨h.bounded, h.contents, fun _ => ?_, ?_⟩
    · apply h.pending
      intro hidle
      exact Pop.noConfusion (hidle.symm.trans hpop)
    · intro event hcopied
      exact (Pop.copied.inj hcopied).symm
  | release event hpop => exact h.release hpop

theorem Reach.fifo {σ : System} (h : Reach σ) : Fifo σ := by
  induction h with
  | start q => exact Fifo.start q
  | step _ hstep ih => exact ih.step hstep

/-- **The queue is a lossless FIFO across interrupts.** In every state of every interleaving: the events
popped are a prefix of those accepted, and the rest are the events queued, in order; a push from here is
refused exactly if 63 events are accepted and not released; a pop that makes its test here fails exactly if
none is pending; and both indices are in the array. -/
theorem lossless_fifo (σ : System) (h : Reach σ) :
    σ.popped <+: σ.accepted ∧ σ.accepted = σ.popped ++ σ.queue.contents ∧
      (∀ event, (inputPush (some event) σ.queue).1 = -1 ↔
        σ.accepted.length = σ.popped.length + 63) ∧
      (∀ dest, dest ≠ 0 → (popRefused dest σ.queue = true ↔ σ.accepted.length = σ.popped.length)) ∧
      σ.queue.readIndex < 64 ∧ σ.queue.writeIndex < 64 := by
  have hf := h.fifo
  have hlen : σ.accepted.length = σ.popped.length + σ.queue.count := by
    rw [hf.contents, List.length_append]
    unfold Queue.contents
    rw [Ring.length_window]
  refine ⟨⟨_, hf.contents.symm⟩, hf.contents, ?_, ?_, ?_, ?_⟩
  · intro event
    rw [inputPush_refused_iff hf.bounded, hlen]
    omega
  · intro dest hdest
    rw [popRefused, decide_eq_false hdest, Bool.false_or, decide_eq_true_iff,
      read_eq_write_iff hf.bounded, hlen]
    omega
  · exact UInt32.lt_iff_toNat_lt.mpr hf.bounded.read
  · exact UInt32.lt_iff_toNat_lt.mpr hf.bounded.write

/-- An event that is pushed while a pop is between its test and its copy -/
def keyA : Event := ⟨.a, 1, 0, 97⟩

/-- A key is pushed, tested for, and a second one comes in before the copy. -/
theorem lossless_fifo_interrupted :
    ∃ σ, Reach σ ∧ σ.pop = .tested ∧ σ.accepted = [keyA, keyA] ∧ σ.popped = [] ∧
      σ.accepted = σ.popped ++ σ.queue.contents ∧ σ.queue.writeIndex < 64 := by
  have hpushed := (Reach.start ⟨fun _ => keyA, 7, 9⟩).step (Step.accept _ keyA rfl)
  have htested := hpushed.step (Step.test _ 0x5000 (by decide) rfl (by decide))
  have hagain := htested.step (Step.accept _ keyA rfl)
  obtain ⟨-, hcontents, -, -, -, hwrite⟩ := lossless_fifo _ hagain
  exact ⟨_, hagain, rfl, rfl, rfl, hcontents, hwrite⟩

end MinOS.Input
