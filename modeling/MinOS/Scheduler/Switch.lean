/-
# MinOS.Scheduler.Switch — `kernel/context_switch.s`, and the switches of whole runs.

The routine gets one argument, the control block of the thread to resume. It pushes the callee-saved
registers, stores the stack pointer in that block and at once loads it from there. So it restores what it
has just pushed: every call returns to its caller with the registers it was called with
(`contextSwitch_run`), the block of the outgoing thread is not written, and the stack pointer that was
saved in the other block is lost.

A run of the scheduler records each switch with the processor as it was at the call, and for each thread the
context in which it was last switched out. Between two calls a thread may do anything to registers and
memory, the control blocks apart.
-/
import Mathlib.Data.List.Pairwise
import MinOS.Lib.Amd64
import MinOS.Scheduler.Queue

namespace MinOS.Scheduler

open Amd64

variable {s : State} {h : History}

/-! ## The routine -/

/-- The registers pushed, in order -/
def switchSaved : List Reg := [.rbp, .rbx, .r12, .r13, .r14, .r15]

/-- `movq %rsp, (%rdi)`, `movq (%rdi), %rsp` -/
def switchStack : List Instr := [.store .rsp .rdi, .load .rdi .rsp]

/-- The registers popped, in order -/
def switchRestored : List Reg := [.r15, .r14, .r13, .r12, .rbx, .rbp]

/-- `context_switch` -/
def contextSwitchCode : List Instr :=
  switchSaved.map Instr.push ++ (switchStack ++ (switchRestored.map Instr.pop ++ [.ret]))

/-- The stack pointer of a thread and the registers a function must keep -/
structure Context where
  rsp : UInt64
  rbx : UInt64
  rbp : UInt64
  r12 : UInt64
  r13 : UInt64
  r14 : UInt64
  r15 : UInt64
  deriving DecidableEq, Repr

/-- The callee-saved registers, with the stack pointer `rsp` -/
def contextAt (rsp : UInt64) (c : Cpu) : Context :=
  { rsp := rsp
    rbx := c.regs .rbx
    rbp := c.regs .rbp
    r12 := c.regs .r12
    r13 := c.regs .r13
    r14 := c.regs .r14
    r15 := c.regs .r15 }

/-- The context of the caller at the entry of a routine: its stack pointer is above the return address. -/
def callerContext (c : Cpu) : Context := contextAt (c.regs .rsp + 8) c

/-- The context when the routine has returned -/
def returnContext (c : Cpu) : Context := contextAt (c.regs .rsp) c

/-- The stack pointer after the pushes -/
def pushedRsp (c : Cpu) : UInt64 := c.regs .rsp - words switchSaved.length

/-- What the routine does when the block it is given does not lie in the words it pushes or in the return
address above them -/
structure Switched (c d : Cpu) : Prop where
  context : returnContext d = callerContext c
  rip : d.rip = load c.mem (c.regs .rsp)
  stored : load d.mem (c.regs .rdi) = pushedRsp c
  outside : ∀ x, ¬ Within (pushedRsp c) 56 x → ¬ Within (c.regs .rdi) 8 x → d.mem x = c.mem x

/-- Storing the stack pointer and loading it again leaves the registers as they are. -/
theorem switchStack_run (c : Cpu) :
    (run switchStack c).regs = c.regs ∧
      (run switchStack c).mem = store c.mem (c.regs .rdi) (c.regs .rsp) := by
  simp only [switchStack, run, exec, Cpu.set, load_store, Function.update_eq_self, and_self]

/-- The pops take back what was pushed. -/
theorem assign_switchRestored (f g : Reg → UInt64) {r : Reg} (hr : r ∈ switchSaved) :
    assign switchRestored (switchSaved.reverse.map f) g r = f r := by
  cases r <;> first | rfl | exact absurd hr (by decide)

/-- Pops and a return write nothing. -/
theorem restore_mem (t : Cpu) : (run (switchRestored.map Instr.pop ++ [.ret]) t).mem = t.mem := by
  simp only [switchRestored, List.map, List.cons_append, List.nil_append, run, exec, Cpu.set]

/-- From the pushed words the second half restores the caller. -/
theorem restore_run {c t : Cpu} (hrsp : t.regs .rsp = pushedRsp c)
    (hframe : Frame t.mem (t.regs .rsp)
      (switchSaved.reverse.map c.regs ++ [load c.mem (c.regs .rsp)])) :
    returnContext (run (switchRestored.map Instr.pop ++ [.ret]) t) = callerContext c ∧
      (run (switchRestored.map Instr.pop ++ [.ret]) t).rip = load c.mem (c.regs .rsp) := by
  have hpop : Popped switchRestored (switchSaved.reverse.map c.regs) t
      (run (switchRestored.map Instr.pop) t) :=
    popped_run (by decide) hframe rfl
  rw [run_append]
  generalize run (switchRestored.map Instr.pop) t = d at *
  have hdrsp : d.regs .rsp = c.regs .rsp := by
    rw [hpop.rsp, hrsp]
    exact UInt64.sub_add_cancel _ _
  have hkept : ∀ r ∈ switchSaved, (run [.ret] d).regs r = c.regs r := by
    intro r hr
    have hne : r ≠ .rsp := by
      rintro rfl
      exact absurd hr (by decide)
    show (exec .ret d).regs r = c.regs r
    rw [exec_ret_regs hne, hpop.regs r hne, assign_switchRestored _ _ hr]
  have hsp : (run [.ret] d).regs .rsp = c.regs .rsp + 8 := by
    rw [← hdrsp]
    exact exec_ret_rsp d
  refine ⟨?_, ?_⟩
  · unfold returnContext callerContext contextAt
    rw [hsp, hkept .rbx (by decide), hkept .rbp (by decide), hkept .r12 (by decide),
      hkept .r13 (by decide), hkept .r14 (by decide), hkept .r15 (by decide)]
  · -- the return address is above the registers
    have hlast := hframe.drop.1
    have hback : t.regs .rsp + words (switchSaved.reverse.map c.regs).length = d.regs .rsp :=
      hpop.rsp.symm
    rw [hback] at hlast
    rw [run, run, exec, hpop.mem, hlast]

/-- **`context_switch` returns to its caller.** -/
theorem contextSwitch_run {c : Cpu} (hapart : Apart (c.regs .rdi) 8 (pushedRsp c) 56) :
    Switched c (run contextSwitchCode c) := by
  have hpush : Pushed switchSaved [load c.mem (c.regs .rsp)] c (run (switchSaved.map Instr.push) c) :=
    pushed_run (by decide) ⟨rfl, trivial⟩ (show 8 * 7 ≤ 2 ^ 64 by decide)
  unfold contextSwitchCode
  rw [run_append, run_append]
  generalize run (switchSaved.map Instr.push) c = p at *
  obtain ⟨hregs, hmem⟩ := switchStack_run p
  have hprsp : p.regs .rsp = pushedRsp c := hpush.rsp
  have hprdi : p.regs .rdi = c.regs .rdi := hpush.regs .rdi (by decide)
  rw [hprdi, hprsp] at hmem
  -- The store of the stack pointer spares the pushed words.
  have hframe : Frame (run switchStack p).mem ((run switchStack p).regs .rsp)
      (switchSaved.reverse.map c.regs ++ [load c.mem (c.regs .rsp)]) := by
    rw [hregs]
    apply hpush.frame.congr
    · show 8 * 7 ≤ 2 ^ 64
      decide
    · intro x hx
      rw [hmem]
      apply store_of_not_within
      intro hin
      rw [hprsp] at hx
      exact hapart x hin hx
  have hrsp : (run switchStack p).regs .rsp = pushedRsp c := by rw [hregs, hprsp]
  obtain ⟨hcontext, hrip⟩ := restore_run hrsp hframe
  refine ⟨hcontext, hrip, ?_, ?_⟩
  · rw [restore_mem, hmem, load_store]
  · intro x hframe hblock
    rw [restore_mem, hmem, store_of_not_within hblock]
    apply hpush.outside
    rw [hprsp]
    intro hin
    apply hframe
    unfold Within at *
    have hlen : 8 * switchSaved.length = 48 := rfl
    omega

/-! ## The routine and the scheduler's state -/

/-- The thread that `schedule` passes to `context_switch` -/
def nextThread (s : State) : UInt64 := (takeHead (requeueCurrent s)).current

/-- The processor at the call of `context_switch` that `schedule` makes in the state `s`: the argument is
the next thread, memory holds the control blocks, and the stack in use is not in one of them. -/
structure Calls (s : State) (h : History) (c : Cpu) : Prop where
  rdi : c.regs .rdi = nextThread s
  tcbs : ∀ p ∈ h.threads, load c.mem p = (s.tcbs p).rsp
  frame : ∀ p ∈ h.threads, Apart p 8 (pushedRsp c) 56

theorem lasting_rsp : Lasting Tcb.rsp := ⟨fun _ _ => rfl, fun _ _ => rfl⟩

/-- `schedule` writes one stack pointer, that of the next thread. -/
theorem rsp_threadYield {rsp : UInt64} (hcur : s.current ≠ 0) (hhead : s.readyHead ≠ 0) (x : UInt64) :
    ((threadYield rsp s).tcbs x).rsp = if x = nextThread s then rsp else (s.tcbs x).rsp := by
  unfold threadYield schedule
  rw [if_neg (not_or.mpr ⟨hcur, hhead⟩)]
  show ((contextSwitch rsp (nextThread s) (takeHead (requeueCurrent s))).tcbs x).rsp = _
  unfold contextSwitch
  split
  · rename_i hx
    rw [hx, setTcb_self]
  · rename_i hx
    rw [setTcb_of_ne hx, lasting_rsp.takeHead, lasting_rsp.requeueCurrent]

/-- The blocks of two threads have no byte of their stack pointers in common. -/
def Spread (threads : List UInt64) : Prop :=
  ∀ p ∈ threads, ∀ q ∈ threads, p ≠ q → Apart p 8 q 8

/-- **The model of the switch in `schedule` is what the routine does to the control blocks.** -/
theorem contextSwitch_refines {c : Cpu} (hcur : s.current ≠ 0) (hhead : s.readyHead ≠ 0)
    (hcall : Calls s h c) (hnext : nextThread s ∈ h.threads) (hspread : Spread h.threads) :
    ∀ p ∈ h.threads,
      load (run contextSwitchCode c).mem p = ((threadYield (pushedRsp c) s).tcbs p).rsp := by
  have hrun : Switched c (run contextSwitchCode c) := by
    apply contextSwitch_run
    rw [hcall.rdi]
    exact hcall.frame _ hnext
  intro p hp
  rw [rsp_threadYield hcur hhead]
  split
  · rename_i hpn
    rw [hpn, ← hcall.rdi, hrun.stored]
  · rename_i hpn
    rw [← hcall.tcbs p hp]
    apply load_congr
    intro x hx
    apply hrun.outside x (hcall.frame p hp x hx)
    rw [hcall.rdi]
    exact hspread p hp _ hnext hpn x hx

/-! ## Runs -/

/-- A switch of a run: the scheduler before it, the contexts in which the threads were last switched out,
and the processor at the call -/
structure Switch where
  before : State
  saved : UInt64 → Option Context
  cpu : Cpu

/-- The block does not reach past the end of memory. -/
def Fits (tcb : UInt64) : Prop := tcb.toNat + tcbSize ≤ 2 ^ 64

instance (tcb : UInt64) : Decidable (Fits tcb) := inferInstanceAs (Decidable (_ ≤ _))

/-- `scheduler_init`, and then `thread_create` and `schedule` in any order: the state, the contexts in which
the threads were last switched out (none for a thread that never was), and the switches made, last one
first -/
inductive Switching : State → History → (UInt64 → Option Context) → List Switch → Prop
  | init (tcbs : UInt64 → Tcb) (idle boot tcb stack : UInt64)
      (hboot : Fresh [] ⟨boot, tcbSize⟩) (hfresh : FreshPair (History.boot boot) tcb stack)
      (hfits : Fits boot ∧ Fits tcb) :
      Switching (schedulerInit idle boot tcb stack (State.initial tcbs))
        ((History.boot boot).create tcb stack) (fun _ => none) []
  | create {s : State} {h : History} {saved : UInt64 → Option Context} {log : List Switch}
      (hrun : Switching s h saved log) (entry tcb stack : UInt64) (hfresh : FreshPair h tcb stack)
      (hfits : Fits tcb) :
      Switching (threadCreate entry tcb stack s).2 (h.create tcb stack) saved log
  | stay {s : State} {h : History} {saved : UInt64 → Option Context} {log : List Switch}
      (hrun : Switching s h saved log) (rsp : UInt64) (hstay : s.current = 0 ∨ s.readyHead = 0) :
      Switching (threadYield rsp s) h saved log
  | switch {s : State} {h : History} {saved : UInt64 → Option Context} {log : List Switch}
      (hrun : Switching s h saved log) (c : Cpu) (hcur : s.current ≠ 0) (hhead : s.readyHead ≠ 0)
      (hcall : Calls s h c) :
      Switching (threadYield (pushedRsp c) s) h
        (Function.update saved s.current (some (callerContext c))) (⟨s, saved, c⟩ :: log)

/-- The switch resumes the thread it names: in the context in which that thread was last switched out, on
its own stack if it never ran; and the outgoing thread's stack pointer is in the outgoing thread's block. -/
def Switch.Resumes (w : Switch) : Prop :=
  (match w.saved (nextThread w.before) with
    | some context => returnContext (run contextSwitchCode w.cpu) = context
    | none => (returnContext (run contextSwitchCode w.cpu)).rsp =
        (w.before.tcbs (nextThread w.before)).stackBase + UInt64.ofNat tcbStackSize) ∧
    load (run contextSwitchCode w.cpu).mem w.before.current = pushedRsp w.cpu

/-- There is nothing to switch: the named thread was last switched out in the very context of the caller (or
has its unused stack where the caller's stack pointer is), and the outgoing thread's block holds this stack
pointer already. -/
def Switch.SameContext (w : Switch) : Prop :=
  (match w.saved (nextThread w.before) with
    | some context => context = callerContext w.cpu
    | none => (w.before.tcbs (nextThread w.before)).stackBase + UInt64.ofNat tcbStackSize =
        w.cpu.regs .rsp + 8) ∧
    (w.before.tcbs w.before.current).rsp = pushedRsp w.cpu

/-- What a run keeps beside the queue -/
structure Placed (s : State) (h : History) : Prop where
  run : Run s h
  fits : ∀ p ∈ h.threads, Fits p
  apart : h.threads.Pairwise fun p q => (⟨p, tcbSize⟩ : Block).Apart ⟨q, tcbSize⟩

/-- Blocks that are apart have stack pointers that are apart. -/
theorem apart_of_blocks {p q : UInt64} (hp : Fits p) (hq : Fits q)
    (h : (⟨p, tcbSize⟩ : Block).Apart ⟨q, tcbSize⟩) : Apart p 8 q 8 := by
  intro x hxp hxq
  unfold Within at hxp hxq
  unfold Fits at hp hq
  unfold Block.Apart at h
  rw [UInt64.toNat_sub] at hxp hxq
  dsimp only [tcbSize] at *
  have hx := x.toNat_lt
  omega

theorem Placed.spread (hp : Placed s h) : Spread h.threads := by
  intro p hpm q hqm hne
  have : Std.Symm fun a b : UInt64 => (⟨a, tcbSize⟩ : Block).Apart ⟨b, tcbSize⟩ :=
    ⟨fun _ _ => Or.symm⟩
  exact apart_of_blocks (hp.fits p hpm) (hp.fits q hqm) (hp.apart.forall hpm hqm hne)

theorem Placed.create {tcb stack : UInt64} (hp : Placed s h) (entry : UInt64)
    (hfresh : FreshPair h tcb stack) (hfits : Fits tcb) :
    Placed (threadCreate entry tcb stack s).2 (h.create tcb stack) := by
  obtain ⟨c, q, hk⟩ := hp.run.kept
  refine ⟨hp.run.create entry tcb stack hfresh, ?_, ?_⟩
  · intro p hpm
    rcases List.mem_append.mp hpm with hpm | hpm
    · exact hp.fits p hpm
    · rw [List.mem_singleton.mp hpm]
      exact hfits
  · show (h.threads ++ [tcb]).Pairwise _
    rw [List.pairwise_append]
    refine ⟨hp.apart, List.pairwise_singleton _ _, ?_⟩
    intro p hpm t ht
    rw [List.mem_singleton.mp ht]
    exact (hfresh.block.apart _ (hk.blocks p hpm)).symm

/-- **Every run places its blocks apart.** -/
theorem Switching.placed {saved : UInt64 → Option Context} {log : List Switch}
    (hrun : Switching s h saved log) : Placed s h := by
  induction hrun with
  | init tcbs idle boot tcb stack hboot hfresh hfits =>
    refine ⟨Run.init tcbs idle boot tcb stack hboot hfresh, ?_, ?_⟩
    · intro p hp
      rcases List.mem_cons.mp hp with rfl | hp
      · exact hfits.1
      · rw [List.mem_singleton.mp hp]
        exact hfits.2
    · show [boot, tcb].Pairwise _
      rw [List.pairwise_pair]
      exact (hfresh.block.apart _ (List.mem_singleton_self _)).symm
  | create _ entry tcb stack hfresh hfits ih => exact ih.create entry hfresh hfits
  | stay _ rsp _ ih => exact ⟨ih.run.yield rsp, ih.fits, ih.apart⟩
  | switch _ c _ _ _ ih => exact ⟨ih.run.yield _, ih.fits, ih.apart⟩

/-! ## When a switch switches -/

/-- The running thread and the next one are two threads. -/
theorem Placed.next (hp : Placed s h) (hhead : s.readyHead ≠ 0) :
    s.current ∈ h.threads ∧ nextThread s ∈ h.threads ∧ s.current ≠ nextThread s := by
  obtain ⟨c, q, hk⟩ := hp.run.kept
  have hr := hk.represents
  cases q with
  | nil => exact absurd hr.ready.chain hhead
  | cons a q =>
    have hnext : nextThread s = a := by
      have hyield := (hr.yield 0).current
      have hcur : s.current ≠ 0 := hr.current ▸ hr.ne_null
      unfold threadYield schedule at hyield
      rw [if_neg (not_or.mpr ⟨hcur, hhead⟩)] at hyield
      exact hyield
    have hca : c ≠ a := fun hca => hr.apart (hca ▸ List.mem_cons_self)
    rw [hr.current, hnext]
    exact ⟨hk.threads.mem_iff.mp List.mem_cons_self,
      hk.threads.mem_iff.mp (List.mem_cons_of_mem _ List.mem_cons_self), hca⟩

/-- One switch: the routine returns to its caller and leaves the outgoing thread's block alone, so that it
does what it should exactly when there was nothing to do. -/
theorem resumes_iff {c : Cpu} {saved : UInt64 → Option Context} (hp : Placed s h)
    (hcur : s.current ≠ 0) (hhead : s.readyHead ≠ 0) (hcall : Calls s h c) :
    (⟨s, saved, c⟩ : Switch).Resumes ↔ (⟨s, saved, c⟩ : Switch).SameContext := by
  obtain ⟨hcurMem, hnextMem, hne⟩ := hp.next hhead
  have hrun : Switched c (run contextSwitchCode c) := by
    apply contextSwitch_run
    rw [hcall.rdi]
    exact hcall.frame _ hnextMem
  have hblock : load (run contextSwitchCode c).mem s.current = (s.tcbs s.current).rsp := by
    rw [contextSwitch_refines hcur hhead hcall hnextMem hp.spread _ hcurMem,
      rsp_threadYield hcur hhead, if_neg hne]
  unfold Switch.Resumes Switch.SameContext
  dsimp only
  rw [hrun.context, hblock]
  cases saved (nextThread s) with
  | none => exact and_congr_left' eq_comm
  | some context => exact and_congr_left' eq_comm

/-- **Every switch of every run resumes the thread it names exactly when there is nothing to switch.** -/
theorem switching_resumes_iff (s : State) (h : History) (saved : UInt64 → Option Context)
    (log : List Switch) (hrun : Switching s h saved log) :
    ∀ w ∈ log, w.Resumes ↔ w.SameContext := by
  induction hrun with
  | init => exact fun _ hw => absurd hw List.not_mem_nil
  | create _ _ _ _ _ _ ih => exact ih
  | stay _ _ _ ih => exact ih
  | switch hrun c hcur hhead hcall ih =>
    intro w hw
    rcases List.mem_cons.mp hw with rfl | hw
    · exact resumes_iff hrun.placed hcur hhead hcall
    · exact ih w hw

/-- After boot with blocks at 0x1000 and 0x2000, the idle thread's stack ending at 0x5000 -/
def booted : State :=
  schedulerInit 0x100000 0x1000 0x2000 0x3000 (State.initial fun _ =>
    ⟨0, 0, 0, 0, 0, 0, 0, 0, 0, 0, .blocked, 0, 0, 0⟩)

/-- A call of `context_switch(next)` with the stack pointer 0x9000 and the other registers 0, while the idle
thread's block holds `rsp` and everything else is 0 -/
def switchCall (next rsp : UInt64) : Cpu :=
  { regs := fun r => match r with
      | .rsp => 0x9000
      | .rdi => next
      | _ => 0
    gsBase := 0
    kernelGsBase := 0
    rip := 0
    mem := store (fun _ => 0) 0x2000 rsp }

theorem apart_of_distance {a d b : UInt64} {n k : Nat} (hb : b = a + d) (hn : n ≤ d.toNat)
    (hk : k ≤ 2 ^ 64 - d.toNat) : Apart a n b k := by
  intro x hx hx'
  unfold Within at *
  rw [hb, toNat_sub_add] at hx'
  have hlt := (x - a).toNat_lt
  have hd := d.toNat_lt
  omega

theorem calls_switchCall {s : State} {next rsp : UInt64}
    (hnext : next = nextThread s) (hboot : (s.tcbs 0x1000).rsp = 0) (hidle : (s.tcbs 0x2000).rsp = rsp) :
    Calls s ((History.boot 0x1000).create 0x2000 0x3000) (switchCall next rsp) := by
  have hrsp : pushedRsp (switchCall next rsp) = 0x9000 - 48 := rfl
  refine ⟨hnext, ?_, ?_⟩
  · intro p hp
    rcases List.mem_cons.mp hp with rfl | hp
    · have hload : load (switchCall next rsp).mem 0x1000 = load (fun _ => 0) 0x1000 :=
        load_store_of_apart (apart_of_distance (d := 0x1000) rfl (by decide) (by decide))
      rw [hload, hboot]
      rfl
    · rw [List.mem_singleton.mp hp, hidle]
      exact load_store _ _ _
  · intro p hp
    rcases List.mem_cons.mp hp with rfl | hp
    · exact apart_of_distance (d := 0x7fd0) (by rw [hrsp]; decide) (by decide) (by decide)
    · rw [List.mem_singleton.mp hp]
      exact apart_of_distance (d := 0x6fd0) (by rw [hrsp]; decide) (by decide) (by decide)

theorem switching_booted :
    Switching booted ((History.boot 0x1000).create 0x2000 0x3000) (fun _ => none) [] :=
  Switching.init _ _ _ _ _ ⟨by decide, by decide⟩
    ⟨⟨by decide, by decide⟩, ⟨by decide, by decide⟩⟩ ⟨by decide, by decide⟩

/-- The first switch, from the boot thread to the idle thread -/
def firstSwitch : Switch := ⟨booted, fun _ => none, switchCall 0x2000 0x5000⟩

theorem switching_first :
    Switching (threadYield (0x9000 - 48) booted) ((History.boot 0x1000).create 0x2000 0x3000)
      (Function.update (fun _ => none) 0x1000 (some (callerContext firstSwitch.cpu))) [firstSwitch] :=
  switching_booted.switch (switchCall 0x2000 0x5000) (by decide) (by decide)
    (calls_switchCall (by decide) (by decide) (by decide))

/-- The boot thread yields to the idle thread, and the same code yields once more: the first of the two
switches goes wrong, the second has nothing to switch. -/
theorem switching_resumes_iff_boot :
    ∃ s h saved w, Switching s h saved [w, firstSwitch] ∧ ¬ firstSwitch.Resumes ∧ w.Resumes := by
  have hrun := switching_first.switch (switchCall 0x1000 (0x9000 - 48)) (by decide) (by decide)
    (calls_switchCall (by decide) (by decide) (by decide))
  have hiff := switching_resumes_iff _ _ _ _ hrun
  refine ⟨_, _, _, _, hrun, ?_, ?_⟩
  · rw [hiff _ (List.mem_cons_of_mem _ List.mem_cons_self)]
    rintro ⟨-, hblock⟩
    exact absurd hblock (by decide)
  · rw [hiff _ List.mem_cons_self]
    exact ⟨rfl, by decide⟩

/-- The first yield after boot does not resume the idle thread on its stack, which ends at 0x5000. -/
theorem first_yield_not_resumed :
    ¬ ∀ s h saved log, Switching s h saved log → ∀ w ∈ log, w.Resumes := by
  intro hall
  have hresumes := hall _ _ _ _ switching_first _ List.mem_cons_self
  have hcall : Calls booted _ (switchCall 0x2000 0x5000) :=
    calls_switchCall (by decide) (by decide) (by decide)
  have hsame := (resumes_iff switching_booted.placed (by decide) (by decide) hcall).mp hresumes
  exact absurd hsame.1 (by decide)

end MinOS.Scheduler
