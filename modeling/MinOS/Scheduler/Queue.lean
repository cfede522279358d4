/-
# MinOS.Scheduler.Queue — the ready list is a queue, and yielding is round robin.

`Represents s c q`: the linked list from `ready_head` is the queue `q`, and `c` is the running thread. Over
that view the two functions are what a round-robin scheduler is: `thread_create` puts a thread at the end
of the queue, `thread_yield` turns `(c, a :: q)` into `(a, q ++ [c])`. Everything about whole runs follows:
no thread is lost or duplicated, and as many yields as there are threads run each of them once.

A run says which blocks `kmalloc` returned. They are fresh: not NULL, and apart from every block returned
before.
-/
import Mathlib.Algebra.Group.Nat.Defs
import Mathlib.Data.List.Nodup
import MinOS.Lib.Chain
import MinOS.Scheduler.Model

namespace MinOS.Scheduler

open LinkedList (Chain)

variable {s : State} {p c a : UInt64} {q : List UInt64}

/-! ## Fields -/

/-- The `next` fields -/
def links (s : State) : UInt64 → UInt64 := fun p => (s.tcbs p).next

/-- `pid` and `tid` -/
def Tcb.ids (t : Tcb) : UInt32 × UInt32 := (t.pid, t.tid)

@[simp] theorem setTcb_self (s : State) (p : UInt64) (t : Tcb) : (s.setTcb p t).tcbs p = t :=
  Function.update_self _ _ _

theorem setTcb_of_ne {x : UInt64} (h : x ≠ p) (t : Tcb) : (s.setTcb p t).tcbs x = s.tcbs x :=
  Function.update_of_ne h _ _

/-- A field that a store does not change is as before in every block. -/
theorem field_setTcb {β : Type} (field : Tcb → β) {t : Tcb} (h : field t = field (s.tcbs p))
    (x : UInt64) : field ((s.setTcb p t).tcbs x) = field (s.tcbs x) := by
  by_cases hx : x = p
  · rw [hx, setTcb_self]
    exact h
  · rw [setTcb_of_ne hx]

theorem links_setState (s : State) (p : UInt64) (state : TaskState) :
    links (s.setState p state) = links s :=
  funext (field_setTcb Tcb.next rfl)

theorem links_contextSwitch (s : State) (rsp p : UInt64) : links (contextSwitch rsp p s) = links s :=
  funext (field_setTcb Tcb.next rfl)

/-! ## The ready list -/

/-- The list from `ready_head` to `ready_tail` is `q`. -/
structure ReadyList (s : State) (q : List UInt64) : Prop where
  chain : Chain (links s) 0 s.readyHead q
  tail : s.readyTail = q.getLastD 0

/-- `ready_head` and `ready_tail` are NULL together. -/
theorem ReadyList.null_iff (h : ReadyList s q) : s.readyHead = 0 ↔ s.readyTail = 0 := by
  cases q with
  | nil => exact ⟨fun _ => h.tail, fun _ => h.chain⟩
  | cons x q =>
    have hlast : (x :: q).getLastD 0 ∈ x :: q := by
      rw [List.getLastD_eq_getLast?, List.getLast?_eq_getLast_of_ne_nil (List.cons_ne_nil x q)]
      exact List.getLast_mem _
    have hhead : s.readyHead = x := h.chain.1
    rw [hhead, h.tail]
    exact ⟨fun h0 => absurd h0 (h.chain.ne_null List.mem_cons_self),
      fun h0 => absurd h0 (h.chain.ne_null hlast)⟩

/-- A block that is not linked joins the list at its end. -/
theorem ReadyList.enqueue (h : ReadyList s q) (hp : p ≠ 0) (hnot : p ∉ q)
    (hend : (s.tcbs p).next = 0) : ReadyList (enqueue p s) (q ++ [p]) := by
  cases q with
  | nil =>
    have hhead : s.readyHead = 0 := h.chain
    rw [Scheduler.enqueue, if_pos hhead]
    exact ⟨⟨rfl, hp, hend⟩, rfl⟩
  | cons x q =>
    have hhead : s.readyHead ≠ 0 := by
      rw [h.chain.1]
      exact h.chain.2.1
    obtain ⟨t, ht⟩ : ∃ t, (x :: q).getLast? = some t :=
      ⟨_, List.getLast?_eq_getLast_of_ne_nil (List.cons_ne_nil x q)⟩
    have htail : s.readyTail = t := by
      rw [h.tail, List.getLastD_eq_getLast?, ht]
      rfl
    have hpt : p ≠ t := by
      rintro rfl
      exact hnot (List.mem_of_getLast? ht)
    rw [Scheduler.enqueue, if_neg hhead, htail]
    constructor
    · apply h.chain.snoc ht
      · intro y _ hyt
        exact congrArg Tcb.next (setTcb_of_ne hyt _)
      · exact congrArg Tcb.next (setTcb_self s t _)
      · exact (congrArg Tcb.next (setTcb_of_ne hpt _)).trans hend
      · exact hp
    · show p = (x :: q ++ [p]).getLastD 0
      rw [List.getLastD_concat]

/-- `schedule` takes the head off the list: what the state is after that -/
theorem takeHead_eq (hhead : s.readyHead = a) :
    takeHead s =
      { (s.setNext a 0).setState a .running with
        readyHead := (s.tcbs a).next
        readyTail := if (s.tcbs a).next = 0 then 0 else s.readyTail
        current := a } := by
  subst hhead
  by_cases hnext : (s.tcbs s.readyHead).next = 0
  · simp only [takeHead, if_pos hnext]
    rfl
  · simp only [takeHead, if_neg hnext]
    rfl

/-- The head leaves the list, unlinked and running. -/
theorem ReadyList.takeHead (h : ReadyList s (a :: q)) :
    ReadyList (takeHead s) q ∧ (takeHead s).current = a ∧ ((takeHead s).tcbs a).state = .running ∧
      ((takeHead s).tcbs a).next = 0 := by
  have hanot : a ∉ q := (List.nodup_cons.mp h.chain.nodup).1
  have hchain : Chain (links s) 0 (s.tcbs a).next q := h.chain.2.2
  -- Only the TCB of the head changes, and it is not in the rest of the list.
  rw [takeHead_eq h.chain.1]
  refine ⟨⟨?_, ?_⟩, rfl, ?_, ?_⟩
  · apply hchain.congr
    intro x hx
    have hxa : x ≠ a := fun hxa => hanot (hxa ▸ hx)
    show (((s.setNext a 0).setState a .running).tcbs x).next = (s.tcbs x).next
    rw [State.setState, setTcb_of_ne hxa, State.setNext, setTcb_of_ne hxa]
  · show (if (s.tcbs a).next = 0 then 0 else s.readyTail) = q.getLastD 0
    cases q with
    | nil => exact if_pos hchain
    | cons x q =>
      have hne : (s.tcbs a).next ≠ 0 := by
        rw [hchain.1]
        exact hchain.2.1
      rw [if_neg hne, h.tail]
      rfl
  · show (((s.setNext a 0).setState a .running).tcbs a).state = .running
    rw [State.setState, setTcb_self]
  · show (((s.setNext a 0).setState a .running).tcbs a).next = 0
    rw [State.setState, setTcb_self, State.setNext, setTcb_self]

/-! ## The abstract scheduler -/

/-- `c` is running and the ready list is `q`. -/
structure Represents (s : State) (c : UInt64) (q : List UInt64) : Prop where
  current : s.current = c
  ne_null : c ≠ 0
  running : (s.tcbs c).state = .running
  detached : (s.tcbs c).next = 0
  ready : ReadyList s q
  apart : c ∉ q

theorem tcbs_enqueue_of_notMem {x : UInt64} (h : ReadyList s q) (hx : x ∉ q) :
    (enqueue p s).tcbs x = s.tcbs x := by
  rw [enqueue]
  split
  · rfl
  · rename_i hhead
    have hnil : q ≠ [] := by
      rintro rfl
      exact hhead h.chain
    have htail : s.readyTail ∈ q := by
      rw [h.tail, List.getLastD_eq_getLast?, List.getLast?_eq_getLast_of_ne_nil hnil]
      exact List.getLast_mem hnil
    have hne : x ≠ s.readyTail := by
      rintro rfl
      exact hx htail
    exact setTcb_of_ne hne _

theorem current_enqueue (p : UInt64) (s : State) : (enqueue p s).current = s.current := by
  rw [enqueue]
  split
  · rfl
  · rfl

/-- **`thread_create` puts the thread at the end of the queue.** -/
theorem Represents.create {entry tcb stack : UInt64} (h : Represents s c q) (htcb : tcb ≠ 0)
    (hstack : stack ≠ 0) (hc : tcb ≠ c) (hq : tcb ∉ q) :
    Represents (threadCreate entry tcb stack s).2 c (q ++ [tcb]) := by
  rw [threadCreate, if_neg htcb, if_neg hstack]
  dsimp only
  generalize htnew : newTcb (stack + UInt64.ofNat tcbStackSize) entry stack .ready s = t
  have hready : ReadyList (s.setTcb tcb t).countThread q := by
    refine ⟨h.ready.chain.congr ?_, h.ready.tail⟩
    intro x hx
    have hxt : x ≠ tcb := fun hxt => hq (hxt ▸ hx)
    exact congrArg Tcb.next (setTcb_of_ne hxt t)
  have hend : ((s.setTcb tcb t).countThread.tcbs tcb).next = 0 := by
    show ((s.setTcb tcb t).tcbs tcb).next = 0
    rw [setTcb_self, ← htnew]
    rfl
  have hcur : (enqueue tcb (s.setTcb tcb t).countThread).tcbs c = s.tcbs c :=
    (tcbs_enqueue_of_notMem hready h.apart).trans (setTcb_of_ne hc.symm t)
  refine ⟨?_, h.ne_null, ?_, ?_, hready.enqueue htcb hq hend, ?_⟩
  · rw [current_enqueue]
    exact h.current
  · rw [hcur]
    exact h.running
  · rw [hcur]
    exact h.detached
  · rw [List.mem_append, List.mem_singleton, not_or]
    exact ⟨h.apart, hc.symm⟩

/-- **`thread_yield` runs the first of the queue and puts the running thread at its end.** -/
theorem Represents.yield (h : Represents s c (a :: q)) (rsp : UInt64) :
    Represents (threadYield rsp s) a (q ++ [c]) := by
  have hcur : s.current ≠ 0 := by
    rw [h.current]
    exact h.ne_null
  have hhead : s.readyHead ≠ 0 := by
    rw [h.ready.chain.1]
    exact h.ready.chain.2.1
  have hac : a ≠ c := fun hac => h.apart (hac ▸ List.mem_cons_self)
  have haq : a ∉ q := (List.nodup_cons.mp h.ready.chain.nodup).1
  have hrequeue : requeueCurrent s = enqueue c (s.setState c .ready) := by
    rw [requeueCurrent, h.current, if_pos h.running]
  have hready : ReadyList (s.setState c .ready) (a :: q) := by
    refine ⟨?_, h.ready.tail⟩
    rw [links_setState]
    exact h.ready.chain
  have hend : ((s.setState c .ready).tcbs c).next = 0 := by
    rw [State.setState, setTcb_self]
    exact h.detached
  -- First the running thread goes to the end, then the head comes off.
  have hqueue : ReadyList (enqueue c (s.setState c .ready)) (a :: (q ++ [c])) :=
    hready.enqueue h.ne_null h.apart hend
  obtain ⟨htaken, hcurrent, hrunning, hnext⟩ := hqueue.takeHead
  rw [threadYield, schedule, if_neg (not_or.mpr ⟨hcur, hhead⟩), hrequeue]
  dsimp only
  rw [hcurrent]
  refine ⟨hcurrent, h.ready.chain.2.1, ?_, ?_, ⟨?_, htaken.tail⟩, ?_⟩
  · rw [contextSwitch, setTcb_self]
    exact hrunning
  · rw [contextSwitch, setTcb_self]
    exact hnext
  · rw [links_contextSwitch]
    exact htaken.chain
  · rw [List.mem_append, List.mem_singleton, not_or]
    exact ⟨haq, hac⟩

/-- With nothing ready, `thread_yield` returns to the running thread. -/
theorem Represents.yield_alone (h : Represents s c []) (rsp : UInt64) : threadYield rsp s = s :=
  if_pos (Or.inr h.ready.chain)

/-! ## Round robin -/

/-- The threads that are current after each of a sequence of yields, given the stack pointers stored -/
def ran : List UInt64 → State → List UInt64
  | [], _ => []
  | rsp :: rsps, s => (threadYield rsp s).current :: ran rsps (threadYield rsp s)

/-- Yields run the queue from its head, and then the thread that was running. -/
theorem Represents.ran_eq_take {rsps : List UInt64} (h : Represents s c q)
    (hlen : rsps.length ≤ q.length + 1) : ran rsps s = (q ++ [c]).take rsps.length := by
  induction rsps generalizing s c q with
  | nil => rfl
  | cons rsp rsps ih =>
    cases q with
    | nil =>
      have hnil : rsps = [] := List.eq_nil_of_length_eq_zero (by simpa using hlen)
      rw [hnil, ran, h.yield_alone, h.current]
      rfl
    | cons a q =>
      have hyield := h.yield rsp
      have hle : rsps.length ≤ (q ++ [c]).length := by
        rw [List.length_append]
        exact Nat.le_of_succ_le_succ hlen
      rw [ran, hyield.current, ih hyield (Nat.le_succ_of_le hle), List.take_append_of_le_length hle]
      rfl

/-! ## Runs -/

/-- A block that `kmalloc` returned -/
structure Block where
  base : UInt64
  size : Nat

/-- The two blocks have no byte in common. -/
def Block.Apart (b d : Block) : Prop :=
  b.base.toNat + b.size ≤ d.base.toNat ∨ d.base.toNat + d.size ≤ b.base.toNat

instance (b d : Block) : Decidable (b.Apart d) := inferInstanceAs (Decidable (_ ∨ _))

/-- What `kmalloc` is assumed to return after `blocks`: a block, and one apart from all of them. -/
structure Fresh (blocks : List Block) (b : Block) : Prop where
  ne_null : b.base ≠ 0
  apart : ∀ d ∈ blocks, b.Apart d

/-- What a run has done: the calls of `thread_create`, the threads in the order in which they came to
be, and the blocks `kmalloc` returned -/
structure History where
  creations : Nat
  threads : List UInt64
  blocks : List Block

/-- After one more `thread_create`, in the two blocks -/
def History.create (h : History) (tcb stack : UInt64) : History :=
  { creations := h.creations + 1
    threads := h.threads ++ [tcb]
    blocks := ⟨stack, tcbStackSize⟩ :: ⟨tcb, tcbSize⟩ :: h.blocks }

/-- `kmalloc` returns fresh blocks to a `thread_create`. -/
structure FreshPair (h : History) (tcb stack : UInt64) : Prop where
  block : Fresh h.blocks ⟨tcb, tcbSize⟩
  stackBlock : Fresh (⟨tcb, tcbSize⟩ :: h.blocks) ⟨stack, tcbStackSize⟩

/-- After `scheduler_init` has its first block: the boot thread -/
def History.boot (boot : UInt64) : History := ⟨0, [boot], [⟨boot, tcbSize⟩]⟩

/-- The states reached by `scheduler_init` and then calls of `thread_create` and `thread_yield` in any
order, over any memory, when `kmalloc` returns fresh blocks -/
inductive Run : State → History → Prop
  | init (tcbs : UInt64 → Tcb) (idle boot tcb stack : UInt64)
      (hboot : Fresh [] ⟨boot, tcbSize⟩) (hfresh : FreshPair (History.boot boot) tcb stack) :
      Run (schedulerInit idle boot tcb stack (State.initial tcbs)) ((History.boot boot).create tcb stack)
  | create {s : State} {h : History} (hrun : Run s h) (entry tcb stack : UInt64)
      (hfresh : FreshPair h tcb stack) : Run (threadCreate entry tcb stack s).2 (h.create tcb stack)
  | yield {s : State} {h : History} (hrun : Run s h) (rsp : UInt64) : Run (threadYield rsp s) h

/-! ## What every run keeps -/

/-- The identifiers of the first `n` threads -/
def firstIds (n : Nat) : List (UInt32 × UInt32) :=
  (List.range n).map fun i => (UInt32.ofNat (i + 1), UInt32.ofNat (i + 1))

/-- The invariant of a run: the view of the state as a queue, with every thread in it once; threads are
numbered as they come; every thread lies in a block. -/
structure Kept (s : State) (h : History) (c : UInt64) (q : List UInt64) : Prop where
  represents : Represents s c q
  threads : (c :: q).Perm h.threads
  ids : h.threads.map (fun p => (s.tcbs p).ids) = firstIds h.threads.length
  nextPid : s.nextPid = UInt32.ofNat (h.threads.length + 1)
  nextTid : s.nextTid = UInt32.ofNat (h.threads.length + 1)
  blocks : ∀ p ∈ h.threads, (⟨p, tcbSize⟩ : Block) ∈ h.blocks
  creations : h.threads.length = h.creations + 1

/-- A fresh block is not a thread's. -/
theorem Kept.notMem {h : History} {tcb : UInt64} (hk : Kept s h c q)
    (hfresh : Fresh h.blocks ⟨tcb, tcbSize⟩) : tcb ∉ h.threads := by
  intro hmem
  have hapart := hfresh.apart _ (hk.blocks tcb hmem)
  rw [Block.Apart] at hapart
  dsimp only [tcbSize] at hapart
  omega

/-! ### Identifiers -/

/-- A field of the control blocks that is neither `next` nor `state` -/
structure Lasting {β : Type} (field : Tcb → β) : Prop where
  next : ∀ (t : Tcb) (n : UInt64), field { t with next := n } = field t
  state : ∀ (t : Tcb) (state : TaskState), field { t with state := state } = field t

section

variable {β : Type} {field : Tcb → β}

theorem Lasting.setState (hf : Lasting field) (s : State) (p x : UInt64) (state : TaskState) :
    field ((s.setState p state).tcbs x) = field (s.tcbs x) :=
  field_setTcb field (hf.state _ _) x

theorem Lasting.setNext (hf : Lasting field) (s : State) (p n x : UInt64) :
    field ((s.setNext p n).tcbs x) = field (s.tcbs x) :=
  field_setTcb field (hf.next _ _) x

theorem Lasting.enqueue (hf : Lasting field) (p x : UInt64) (s : State) :
    field ((enqueue p s).tcbs x) = field (s.tcbs x) := by
  unfold Scheduler.enqueue
  split
  · rfl
  · exact hf.setNext s s.readyTail p x

theorem Lasting.takeHead (hf : Lasting field) (s : State) (x : UInt64) :
    field ((takeHead s).tcbs x) = field (s.tcbs x) := by
  rw [takeHead_eq rfl]
  exact (hf.setState _ _ x _).trans (hf.setNext s _ 0 x)

theorem Lasting.requeueCurrent (hf : Lasting field) (s : State) (x : UInt64) :
    field ((requeueCurrent s).tcbs x) = field (s.tcbs x) := by
  unfold Scheduler.requeueCurrent
  split
  · exact (hf.enqueue _ x _).trans (hf.setState s _ x _)
  · rfl

end

theorem lasting_ids : Lasting Tcb.ids := ⟨fun _ _ => rfl, fun _ _ => rfl⟩

theorem ids_contextSwitch (s : State) (rsp p x : UInt64) :
    ((contextSwitch rsp p s).tcbs x).ids = (s.tcbs x).ids := by
  apply field_setTcb Tcb.ids
  rfl

/-- The counters -/
def State.counters (s : State) : UInt32 × UInt32 := (s.nextPid, s.nextTid)

theorem counters_enqueue (p : UInt64) (s : State) : (enqueue p s).counters = s.counters := by
  rw [enqueue]
  split
  · rfl
  · rfl

/-- Yielding changes neither identifiers nor the counters they come from. -/
theorem ids_threadYield (rsp x : UInt64) (s : State) :
    ((threadYield rsp s).tcbs x).ids = (s.tcbs x).ids ∧ (threadYield rsp s).counters = s.counters := by
  rw [threadYield, schedule]
  split
  · exact ⟨rfl, rfl⟩
  · constructor
    · exact (ids_contextSwitch _ rsp _ x).trans
        ((lasting_ids.takeHead _ x).trans (lasting_ids.requeueCurrent s x))
    · show (takeHead (requeueCurrent s)).counters = s.counters
      rw [takeHead_eq rfl]
      show (requeueCurrent s).counters = s.counters
      rw [requeueCurrent]
      split
      · exact counters_enqueue _ _
      · rfl

/-- A new thread is numbered by the counters, which go up; other threads keep their numbers. -/
theorem ids_threadCreate (entry : UInt64) {tcb stack : UInt64} (htcb : tcb ≠ 0) (hstack : stack ≠ 0)
    (s : State) :
    ((threadCreate entry tcb stack s).2.tcbs tcb).ids = s.counters ∧
      (∀ x, x ≠ tcb → ((threadCreate entry tcb stack s).2.tcbs x).ids = (s.tcbs x).ids) ∧
      (threadCreate entry tcb stack s).2.counters = (s.nextPid + 1, s.nextTid + 1) := by
  rw [threadCreate, if_neg htcb, if_neg hstack]
  dsimp only
  refine ⟨?_, fun x hx => ?_, ?_⟩
  · rw [lasting_ids.enqueue]
    exact congrArg Tcb.ids (setTcb_self s tcb _)
  · rw [lasting_ids.enqueue]
    exact congrArg Tcb.ids (setTcb_of_ne hx _)
  · rw [counters_enqueue]
    rfl

theorem firstIds_succ (n : Nat) :
    firstIds (n + 1) = firstIds n ++ [(UInt32.ofNat (n + 1), UInt32.ofNat (n + 1))] := by
  rw [firstIds, List.range_succ, List.map_append]
  rfl

theorem ofNat_succ (n : Nat) : UInt32.ofNat (n + 1) = UInt32.ofNat n + 1 := by
  apply UInt32.toNat_inj.mp
  rw [UInt32.toNat_add, UInt32.toNat_ofNat', UInt32.toNat_ofNat', UInt32.toNat_one]
  omega

/-! ### The steps -/

theorem Kept.yield {h : History} (hk : Kept s h c q) (rsp : UInt64) :
    ∃ c' q', Kept (threadYield rsp s) h c' q' := by
  have hids : h.threads.map (fun p => ((threadYield rsp s).tcbs p).ids) =
      firstIds h.threads.length := by
    rw [← hk.ids]
    apply List.map_congr_left
    intro p _
    exact (ids_threadYield rsp p s).1
  have hcounters := (ids_threadYield rsp 0 s).2
  have hpid := (congrArg Prod.fst hcounters).trans hk.nextPid
  have htid := (congrArg Prod.snd hcounters).trans hk.nextTid
  cases q with
  | nil =>
    rw [hk.represents.yield_alone] at *
    exact ⟨c, [], hk⟩
  | cons a q =>
    refine ⟨a, q ++ [c], hk.represents.yield rsp, ?_, hids, hpid, htid, hk.blocks, hk.creations⟩
    -- the same threads, one step round
    have hround : (c :: a :: q).Perm (a :: (q ++ [c])) := List.perm_append_singleton c (a :: q) |>.symm
    exact hround.symm.trans hk.threads

theorem Kept.create {h : History} {tcb stack : UInt64} (hk : Kept s h c q) (entry : UInt64)
    (hfresh : FreshPair h tcb stack) :
    Kept (threadCreate entry tcb stack s).2 (h.create tcb stack) c (q ++ [tcb]) := by
  have hnot := hk.notMem hfresh.block
  have hcq : tcb ∉ c :: q := fun hmem => hnot (hk.threads.mem_iff.mp hmem)
  rw [List.mem_cons, not_or] at hcq
  obtain ⟨hnew, hold, hcounters⟩ :=
    ids_threadCreate entry hfresh.block.ne_null hfresh.stackBlock.ne_null s
  have hlen : (h.create tcb stack).threads.length = h.threads.length + 1 := List.length_append
  refine ⟨hk.represents.create hfresh.block.ne_null hfresh.stackBlock.ne_null hcq.1 hcq.2,
    ?_, ?_, ?_, ?_, ?_, ?_⟩
  · exact hk.threads.append_right [tcb]
  · rw [hlen, firstIds_succ, ← hk.ids]
    show (h.threads ++ [tcb]).map _ = _
    rw [List.map_append]
    congr 1
    · apply List.map_congr_left
      intro p hp
      apply hold p
      rintro rfl
      exact hnot hp
    · rw [List.map_singleton, hnew, State.counters, hk.nextPid, hk.nextTid]
  · rw [hlen, ofNat_succ, ← hk.nextPid]
    exact congrArg Prod.fst hcounters
  · rw [hlen, ofNat_succ, ← hk.nextTid]
    exact congrArg Prod.snd hcounters
  · intro p hp
    change p ∈ h.threads ++ [tcb] at hp
    rw [List.mem_append, List.mem_singleton] at hp
    rcases hp with hp | rfl
    · exact List.mem_cons_of_mem _ (List.mem_cons_of_mem _ (hk.blocks p hp))
    · exact List.mem_cons_of_mem _ List.mem_cons_self
  · rw [hlen, hk.creations]
    rfl

/-! ### `scheduler_init` -/

theorem schedulerInit_eq {idle boot tcb stack : UInt64} (hboot : boot ≠ 0) (htcb : tcb ≠ 0)
    (hstack : stack ≠ 0) (s : State) :
    schedulerInit idle boot tcb stack s =
      ({ (threadCreate idle tcb stack (bootThread boot s)).2 with idleTask := tcb } : State).setState
        tcb .idle := by
  have htask : (threadCreate idle tcb stack (bootThread boot s)).1 = tcb := by
    rw [threadCreate, if_neg htcb, if_neg hstack]
  rw [schedulerInit, if_neg hboot]
  generalize threadCreate idle tcb stack (bootThread boot s) = r at *
  obtain ⟨task, t⟩ := r
  obtain rfl : task = tcb := htask
  exact if_neg htcb

/-- The boot thread runs, and nothing is ready. -/
theorem kept_bootThread (tcbs : UInt64 → Tcb) {boot : UInt64} (hboot : boot ≠ 0) :
    Kept (bootThread boot (State.initial tcbs)) (History.boot boot) boot [] := by
  have htcb : (bootThread boot (State.initial tcbs)).tcbs boot =
      newTcb 0 0 0 .running (State.initial tcbs) := setTcb_self _ _ _
  refine ⟨⟨rfl, hboot, ?_, ?_, ⟨rfl, rfl⟩, List.not_mem_nil⟩, List.Perm.refl _, ?_, rfl, rfl, ?_, rfl⟩
  · rw [htcb]
    rfl
  · rw [htcb]
    rfl
  · show [((bootThread boot (State.initial tcbs)).tcbs boot).ids] = _
    rw [htcb]
    rfl
  · intro p hp
    obtain rfl := List.mem_singleton.mp hp
    exact List.mem_singleton_self _

/-- The state of a queued thread may be rewritten: nothing reads it until the thread runs. -/
theorem Kept.setIdle {h : History} (hk : Kept s h c q) (hp : p ≠ c) :
    Kept (({ s with idleTask := p } : State).setState p .idle) h c q := by
  have hcur : (({ s with idleTask := p } : State).setState p .idle).tcbs c = s.tcbs c :=
    setTcb_of_ne hp.symm _
  have hlinks := links_setState { s with idleTask := p } p .idle
  refine ⟨⟨hk.represents.current, hk.represents.ne_null, ?_, ?_, ⟨?_, hk.represents.ready.tail⟩,
    hk.represents.apart⟩, hk.threads, ?_, hk.nextPid, hk.nextTid, hk.blocks, hk.creations⟩
  · rw [hcur]
    exact hk.represents.running
  · rw [hcur]
    exact hk.represents.detached
  · rw [hlinks]
    exact hk.represents.ready.chain
  · rw [← hk.ids]
    apply List.map_congr_left
    intro x _
    exact lasting_ids.setState { s with idleTask := p } p x .idle

/-- **Every run keeps the invariant.** -/
theorem Run.kept {h : History} (hrun : Run s h) : ∃ c q, Kept s h c q := by
  induction hrun with
  | init tcbs idle boot tcb stack hboot hfresh =>
    have hcreate := (kept_bootThread tcbs hboot.ne_null).create idle hfresh
    rw [schedulerInit_eq hboot.ne_null hfresh.block.ne_null hfresh.stackBlock.ne_null]
    refine ⟨_, _, hcreate.setIdle ?_⟩
    rintro rfl
    exact hcreate.represents.apart (List.mem_append_right _ (List.mem_singleton_self _))
  | create _ entry tcb stack hfresh ih =>
    obtain ⟨c, q, hk⟩ := ih
    exact ⟨c, _, hk.create entry hfresh⟩
  | yield _ rsp ih =>
    obtain ⟨c, q, hk⟩ := ih
    exact hk.yield rsp

/-! ## Fairness -/

/-- Fewer than 2^32 creations leave the identifiers distinct. -/
theorem Kept.distinct {h : History} (hk : Kept s h c q) (hcount : h.creations < 2 ^ 32) :
    h.threads.Pairwise fun x y =>
      (s.tcbs x).pid ≠ (s.tcbs y).pid ∧ (s.tcbs x).tid ≠ (s.tcbs y).tid := by
  -- The identifiers are `i + 1` for `i` below 2^32: the last may wrap to 0, and none repeats.
  have hinj : ∀ i j, i < h.threads.length → j < h.threads.length →
      UInt32.ofNat (i + 1) = UInt32.ofNat (j + 1) → i = j := by
    intro i j hi hj heq
    have hnat := congrArg UInt32.toNat heq
    rw [UInt32.toNat_ofNat', UInt32.toNat_ofNat'] at hnat
    rw [hk.creations] at hi hj
    omega
  have hpairs : (firstIds h.threads.length).Pairwise fun x y => x.1 ≠ y.1 ∧ x.2 ≠ y.2 := by
    rw [firstIds, List.pairwise_map]
    apply (List.nodup_range (n := h.threads.length)).imp_of_mem
    intro i j hi hj hij
    rw [List.mem_range] at hi hj
    exact ⟨fun heq => hij (hinj i j hi hj heq), fun heq => hij (hinj i j hi hj heq)⟩
  rw [← hk.ids, List.pairwise_map] at hpairs
  exact hpairs

/-- **Threads are never lost or duplicated, and run round robin.** In every state of a run the ready list
ends, at `ready_tail`; the running thread is RUNNING and not in it; the threads created so far are the
running one and those in the list, each once, with identifiers of their own; and as many yields as there
are threads make each of them current once, in the order of the list. -/
theorem round_robin (s : State) (h : History) (hrun : Run s h) (hcount : h.creations < 2 ^ 32) :
    ∃ q, Chain (links s) 0 s.readyHead q ∧ q.Nodup ∧ s.readyTail = q.getLastD 0 ∧
      (s.readyHead = 0 ↔ s.readyTail = 0) ∧
      (s.tcbs s.current).state = .running ∧ s.current ∉ q ∧
      (s.current :: q).Nodup ∧ (s.current :: q).Perm h.threads ∧
      (h.threads.Pairwise fun x y =>
        (s.tcbs x).pid ≠ (s.tcbs y).pid ∧ (s.tcbs x).tid ≠ (s.tcbs y).tid) ∧
      ∀ rsps : List UInt64, rsps.length = q.length + 1 → ran rsps s = q ++ [s.current] := by
  obtain ⟨c, q, hk⟩ := hrun.kept
  have hr := hk.represents
  obtain rfl := hr.current
  have hnodup := hr.ready.chain.nodup
  refine ⟨q, hr.ready.chain, hnodup, hr.ready.tail, hr.ready.null_iff, hr.running, hr.apart,
    List.nodup_cons.mpr ⟨hr.apart, hnodup⟩, hk.threads, hk.distinct hcount, ?_⟩
  intro rsps hlen
  rw [hr.ran_eq_take (Nat.le_of_eq hlen)]
  apply List.take_of_length_le
  rw [List.length_append, hlen]
  exact Nat.le_refl _

/-- Boot, one thread created, one yield: three threads, each in its place -/
theorem round_robin_boot :
    ∃ s h, Run s h ∧ h.threads = [0x1000, 0x2000, 0x6000] ∧ s.current = 0x2000 ∧
      ∃ q, (s.current :: q).Perm h.threads ∧
        ∀ rsps : List UInt64, rsps.length = q.length + 1 → ran rsps s = q ++ [s.current] := by
  let memory : UInt64 → Tcb := fun _ => newTcb 0 0 0 .blocked (State.initial fun _ =>
    ⟨0, 0, 0, 0, 0, 0, 0, 0, 0, 0, .blocked, 0, 0, 0⟩)
  have hboot : Run _ _ := Run.init memory 0x100000 0x1000 0x2000 0x3000
    ⟨by decide, by decide⟩ ⟨⟨by decide, by decide⟩, ⟨by decide, by decide⟩⟩
  have hcreate := hboot.create 0x200000 0x6000 0x7000
    ⟨⟨by decide, by decide⟩, ⟨by decide, by decide⟩⟩
  have hrun := hcreate.yield 0x9000
  refine ⟨_, _, hrun, rfl, ?_, ?_⟩
  · rfl
  · obtain ⟨q, -, -, -, -, -, -, -, hthreads, -, hran⟩ := round_robin _ _ hrun (by decide)
    exact ⟨q, hthreads, hran⟩

end MinOS.Scheduler
