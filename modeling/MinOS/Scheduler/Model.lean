/-
# MinOS.Scheduler.Model — `kernel/scheduler.c`, function by function.

The statics of `scheduler.c` and the task control blocks by address are one state; NULL is 0. What
`kmalloc` returned is an argument of the function that called it, one per call, 0 for NULL: a run says
which blocks it is given. `kfree` acts on nothing here, and neither do `cli`, `sti` and serial output.

`context_switch(task)` is the assembly routine `kernel/context_switch.s`: it pushes the callee-saved
registers, stores the stack pointer in the first field of `task` and loads it again from there. For the
state here that is one store, of the stack pointer `rsp`.
-/
import Mathlib.Logic.Function.Basic

namespace MinOS.Scheduler

/-! ## Task control blocks -/

/-- `task_state_t` -/
inductive TaskState
  | idle
  | running
  | ready
  | blocked
  deriving DecidableEq, Repr

/-- `tcb_t` -/
structure Tcb where
  rsp : UInt64
  rip : UInt64
  rbp : UInt64
  rbx : UInt64
  r12 : UInt64
  r13 : UInt64
  r14 : UInt64
  r15 : UInt64
  cr3 : UInt64
  stackBase : UInt64
  state : TaskState
  pid : UInt32
  tid : UInt32
  next : UInt64
  deriving DecidableEq, Repr

/-- `sizeof(tcb_t)` -/
def tcbSize : Nat := 104

/-- `TCB_STACK_SIZE` -/
def tcbStackSize : Nat := 8192

/-! ## State -/

/-- The statics of `scheduler.c` and the task control blocks -/
structure State where
  tcbs : UInt64 → Tcb
  current : UInt64
  readyHead : UInt64
  readyTail : UInt64
  idleTask : UInt64
  nextPid : UInt32
  nextTid : UInt32

/-- The statics as they are initialised, over any memory -/
def State.initial (tcbs : UInt64 → Tcb) : State :=
  { tcbs := tcbs
    current := 0
    readyHead := 0
    readyTail := 0
    idleTask := 0
    nextPid := 1
    nextTid := 1 }

/-- `*p = tcb` -/
def State.setTcb (s : State) (p : UInt64) (tcb : Tcb) : State :=
  { s with tcbs := Function.update s.tcbs p tcb }

/-- `p->state = state` -/
def State.setState (s : State) (p : UInt64) (state : TaskState) : State :=
  s.setTcb p { s.tcbs p with state := state }

/-- `p->next = next` -/
def State.setNext (s : State) (p next : UInt64) : State :=
  s.setTcb p { s.tcbs p with next := next }

/-- `if (!ready_head) ready_head = ready_tail = p; else { ready_tail->next = p; ready_tail = p; }` -/
def enqueue (p : UInt64) (s : State) : State :=
  if s.readyHead = 0 then { s with readyHead := p, readyTail := p }
  else { s.setNext s.readyTail p with readyTail := p }

/-! ## Creating threads -/

/-- The fields `scheduler_init` and `thread_create` write to a block, all of them -/
def newTcb (rsp rip stackBase : UInt64) (state : TaskState) (s : State) : Tcb :=
  { rsp := rsp, rip := rip, rbp := 0, rbx := 0, r12 := 0, r13 := 0, r14 := 0, r15 := 0, cr3 := 0
    stackBase := stackBase, state := state, pid := s.nextPid, tid := s.nextTid, next := 0 }

/-- `next_pid++` and `next_tid++` -/
def State.countThread (s : State) : State :=
  { s with nextPid := s.nextPid + 1, nextTid := s.nextTid + 1 }

/-- `thread_create`, given the two blocks: the control block or NULL -/
def threadCreate (entry tcb stack : UInt64) (s : State) : UInt64 × State :=
  if tcb = 0 then (0, s)
  else if stack = 0 then (0, s)
  else
    let stackTop := stack + UInt64.ofNat tcbStackSize
    (tcb, enqueue tcb (s.setTcb tcb (newTcb stackTop entry stack .ready s)).countThread)

/-- `scheduler_init` up to its call of `thread_create`: the boot thread in its block -/
def bootThread (boot : UInt64) (s : State) : State :=
  { (({ s with current := boot } : State).setTcb boot (newTcb 0 0 0 .running s)).countThread with
    readyHead := 0
    readyTail := 0 }

/-- `scheduler_init`, given the block for the boot thread and those for the idle thread; `idle` is the
address of the function `idle` -/
def schedulerInit (idle boot tcb stack : UInt64) (s : State) : State :=
  if boot = 0 then { s with current := boot }
  else
    let (task, s) := threadCreate idle tcb stack (bootThread boot s)
    let s := { s with idleTask := task }
    if task = 0 then s else s.setState task .idle

/-! ## Switching -/

/-- `context_switch(task)` with the stack pointer `rsp` after its pushes -/
def contextSwitch (rsp task : UInt64) (s : State) : State :=
  s.setTcb task { s.tcbs task with rsp := rsp }

/-- The first part of `schedule`: a running thread goes to the end of the ready list -/
def requeueCurrent (s : State) : State :=
  if (s.tcbs s.current).state = .running then
    enqueue s.current (s.setState s.current .ready)
  else s

/-- The second part of `schedule`: the head of the ready list becomes current -/
def takeHead (s : State) : State :=
  let next := s.readyHead
  let s := { s with readyHead := (s.tcbs next).next }
  let s := if s.readyHead = 0 then { s with readyTail := 0 } else s
  let s := (s.setNext next 0).setState next .running
  { s with current := next }

/-- `schedule`; `rsp` is the stack pointer when `context_switch` stores it -/
def schedule (rsp : UInt64) (s : State) : State :=
  if s.current = 0 ∨ s.readyHead = 0 then s
  else
    let s := takeHead (requeueCurrent s)
    contextSwitch rsp s.current s

/-- `thread_yield` -/
def threadYield (rsp : UInt64) (s : State) : State := schedule rsp s

/-- `thread_exit`: the blocks of the running thread are freed, and `schedule` is called -/
def threadExit (rsp : UInt64) (s : State) : State :=
  if s.current = 0 then s
  else schedule rsp { s with current := 0 }

end MinOS.Scheduler
