/-
# MinOS.Scheduler.Exit — what `thread_exit` leaves behind.

`thread_exit` sets `current` to NULL and then calls `schedule`, whose first line returns when `current` is
NULL. So the head of the ready list never gets the CPU, and since `thread_yield` is `schedule` too, nothing
does from then on: the ready list is as it was, threads can still join it, and `current` stays NULL.

The runs here are those of `MinOS.Scheduler.Queue` with exits in any place. A block that `thread_exit` has
freed may be returned again.
-/
import MinOS.Scheduler.Queue

namespace MinOS.Scheduler

variable {s : State} {q : List UInt64} {h : History}

/-! ## Runs with exits -/

deriving instance DecidableEq for Block

/-- After `thread_exit` in the state `s`: the running thread is gone, its control block and its stack
are free -/
def History.exit (h : History) (s : State) : History :=
  if s.current = 0 then h
  else
    { h with
      threads := h.threads.erase s.current
      blocks := h.blocks.filter fun b =>
        b ≠ ⟨s.current, tcbSize⟩ ∧ b ≠ ⟨(s.tcbs s.current).stackBase, tcbStackSize⟩ }

/-- The states reached by `scheduler_init` and then calls of `thread_create`, `thread_yield` and
`thread_exit` in any order, over any memory, when `kmalloc` returns fresh blocks -/
inductive Life : State → History → Prop
  | init (tcbs : UInt64 → Tcb) (idle boot tcb stack : UInt64)
      (hboot : Fresh [] ⟨boot, tcbSize⟩) (hfresh : FreshPair (History.boot boot) tcb stack) :
      Life (schedulerInit idle boot tcb stack (State.initial tcbs))
        ((History.boot boot).create tcb stack)
  | create {s : State} {h : History} (hlife : Life s h) (entry tcb stack : UInt64)
      (hfresh : FreshPair h tcb stack) : Life (threadCreate entry tcb stack s).2 (h.create tcb stack)
  | yield {s : State} {h : History} (hlife : Life s h) (rsp : UInt64) : Life (threadYield rsp s) h
  | exit {s : State} {h : History} (hlife : Life s h) (rsp : UInt64) :
      Life (threadExit rsp s) (h.exit s)

/-! ## After the exit -/

theorem threadYield_of_null (hnull : s.current = 0) (rsp : UInt64) : threadYield rsp s = s :=
  if_pos (Or.inl hnull)

/-- `schedule` does nothing for `thread_exit`. -/
theorem threadExit_eq (rsp : UInt64) (s : State) : threadExit rsp s = { s with current := 0 } := by
  unfold threadExit
  split
  · rename_i hnull
    rw [← hnull]
  · exact if_pos (Or.inl rfl)

/-- With `current` NULL no number of yields runs a thread. -/
theorem ran_of_null (hnull : s.current = 0) (rsps : List UInt64) :
    ran rsps s = List.replicate rsps.length 0 := by
  induction rsps with
  | nil => rfl
  | cons rsp rsps ih =>
    rw [ran, threadYield_of_null hnull, hnull, ih]
    rfl

/-- No thread is running, and the ready list is `q`. -/
structure Ended (s : State) (h : History) (q : List UInt64) : Prop where
  current : s.current = 0
  ready : ReadyList s q
  blocks : ∀ p ∈ q, (⟨p, tcbSize⟩ : Block) ∈ h.blocks

theorem Ended.notMem {tcb : UInt64} (he : Ended s h q) (hfresh : Fresh h.blocks ⟨tcb, tcbSize⟩) :
    tcb ∉ q := by
  intro hmem
  have hapart := hfresh.apart _ (he.blocks tcb hmem)
  unfold Block.Apart at hapart
  dsimp only [tcbSize] at hapart
  omega

/-- The ready list still takes threads. -/
theorem Ended.create {tcb stack : UInt64} (he : Ended s h q) (entry : UInt64)
    (hfresh : FreshPair h tcb stack) :
    Ended (threadCreate entry tcb stack s).2 (h.create tcb stack) (q ++ [tcb]) := by
  have hnot := he.notMem hfresh.block
  unfold threadCreate
  rw [if_neg hfresh.block.ne_null, if_neg hfresh.stackBlock.ne_null]
  dsimp only
  generalize htnew : newTcb (stack + UInt64.ofNat tcbStackSize) entry stack .ready s = t
  have hready : ReadyList (s.setTcb tcb t).countThread q := by
    refine ⟨he.ready.chain.congr ?_, he.ready.tail⟩
    intro x hx
    have hxt : x ≠ tcb := fun hxt => hnot (hxt ▸ hx)
    exact congrArg Tcb.next (setTcb_of_ne hxt t)
  have hend : ((s.setTcb tcb t).countThread.tcbs tcb).next = 0 := by
    show ((s.setTcb tcb t).tcbs tcb).next = 0
    rw [setTcb_self, ← htnew]
    rfl
  refine ⟨?_, hready.enqueue hfresh.block.ne_null hnot hend, ?_⟩
  · rw [current_enqueue]
    exact he.current
  · intro p hp
    rw [List.mem_append, List.mem_singleton] at hp
    rcases hp with hp | rfl
    · exact List.mem_cons_of_mem _ (List.mem_cons_of_mem _ (he.blocks p hp))
    · exact List.mem_cons_of_mem _ List.mem_cons_self

/-- The first exit ends the run: the ready list stays, with nothing to take its head. -/
theorem Kept.exit {c : UInt64} (hk : Kept s h c q) (rsp : UInt64) :
    Ended (threadExit rsp s) (h.exit s) q := by
  have hr := hk.represents
  have hcur : s.current ≠ 0 := hr.current ▸ hr.ne_null
  rw [threadExit_eq]
  refine ⟨rfl, ⟨hr.ready.chain, hr.ready.tail⟩, ?_⟩
  intro p hp
  have hpc : p ≠ s.current := by
    rintro rfl
    exact hr.apart (hr.current ▸ hp)
  have hmem : p ∈ h.threads := hk.threads.mem_iff.mp (List.mem_cons_of_mem _ hp)
  unfold History.exit
  rw [if_neg hcur]
  apply List.mem_filter.mpr
  refine ⟨hk.blocks p hmem, decide_eq_true ⟨?_, ?_⟩⟩
  · intro heq
    exact hpc (congrArg Block.base heq)
  · -- a stack is larger than a control block
    intro heq
    have hsize : tcbSize = tcbStackSize := congrArg Block.size heq
    exact absurd hsize (by decide)

theorem Ended.exit (he : Ended s h q) (rsp : UInt64) : Ended (threadExit rsp s) (h.exit s) q := by
  have hsame : threadExit rsp s = s := if_pos he.current
  have hhist : h.exit s = h := if_pos he.current
  rw [hsame, hhist]
  exact he

/-- **Every run either has its running thread, or has ended in an exit.** -/
theorem Life.kept_or_ended (hlife : Life s h) : (∃ c q, Kept s h c q) ∨ ∃ q, Ended s h q := by
  induction hlife with
  | init tcbs idle boot tcb stack hboot hfresh =>
    exact .inl (Run.init tcbs idle boot tcb stack hboot hfresh).kept
  | create _ entry tcb stack hfresh ih =>
    rcases ih with ⟨c, q, hk⟩ | ⟨q, he⟩
    · exact .inl ⟨c, _, hk.create entry hfresh⟩
    · exact .inr ⟨_, he.create entry hfresh⟩
  | yield _ rsp ih =>
    rcases ih with ⟨c, q, hk⟩ | ⟨q, he⟩
    · exact .inl (hk.yield rsp)
    · rw [threadYield_of_null he.current]
      exact .inr ⟨q, he⟩
  | exit _ rsp ih =>
    rcases ih with ⟨c, q, hk⟩ | ⟨q, he⟩
    · exact .inr ⟨q, hk.exit rsp⟩
    · exact .inr ⟨q, he.exit rsp⟩

theorem Life.readyList (hlife : Life s h) : ∃ q, ReadyList s q := by
  rcases hlife.kept_or_ended with ⟨c, q, hk⟩ | ⟨q, he⟩
  · exact ⟨q, hk.represents.ready⟩
  · exact ⟨q, he.ready⟩

/-! ## Handing over -/

/-- With `a :: q` ready, an exit hands the CPU over: `a` runs, `q` stays ready, the exited thread is gone,
and yields go round those that remain. -/
structure HandsOver (rsp : UInt64) (s : State) (a : UInt64) (q : List UInt64) : Prop where
  current : (threadExit rsp s).current = a
  running : ((threadExit rsp s).tcbs a).state = .running
  ready : ReadyList (threadExit rsp s) q
  gone : s.current ≠ a ∧ s.current ∉ q
  rotates : ∀ rsps : List UInt64, rsps.length = q.length + 1 → ran rsps (threadExit rsp s) = q ++ [a]

/-- **No exit hands the CPU over.** In every run, whenever a thread is ready, `thread_exit` leaves the
ready list as it is and no thread running, and no later yield runs one. -/
theorem threadExit_never_handsOver (s : State) (h : History) (hlife : Life s h)
    (hready : s.readyHead ≠ 0) (rsp : UInt64) :
    ∃ a q, ReadyList s (a :: q) ∧ ¬ HandsOver rsp s a q ∧
      (threadExit rsp s).current = 0 ∧ ReadyList (threadExit rsp s) (a :: q) ∧
      ∀ rsps : List UInt64, ran rsps (threadExit rsp s) = List.replicate rsps.length 0 := by
  obtain ⟨q, hq⟩ := hlife.readyList
  cases q with
  | nil => exact absurd hq.chain hready
  | cons a q =>
    have hcur : (threadExit rsp s).current = 0 := by rw [threadExit_eq]
    have hstays : ReadyList (threadExit rsp s) (a :: q) := by
      rw [threadExit_eq]
      exact ⟨hq.chain, hq.tail⟩
    refine ⟨a, q, hq, ?_, hcur, hstays, ran_of_null hcur⟩
    intro hands
    have ha : a ≠ 0 := hq.chain.2.1
    exact ha (hands.current.symm.trans hcur)

/-- The memory of the runs below: no block holds anything -/
def blankMemory : UInt64 → Tcb := fun _ =>
  ⟨0, 0, 0, 0, 0, 0, 0, 0, 0, 0, .blocked, 0, 0, 0⟩

/-- The boot thread exits with the idle thread ready. -/
theorem threadExit_never_handsOver_boot :
    ∃ s h, Life s h ∧ s.current = 0x1000 ∧ s.readyHead = 0x2000 ∧
      ∃ a q, ReadyList s (a :: q) ∧ ¬ HandsOver 0x9000 s a q ∧
        (threadExit 0x9000 s).current = 0 := by
  have hlife : Life _ _ := Life.init blankMemory 0x100000 0x1000 0x2000 0x3000
    ⟨by decide, by decide⟩ ⟨⟨by decide, by decide⟩, ⟨by decide, by decide⟩⟩
  obtain ⟨a, q, hq, hnot, hcur, -⟩ :=
    threadExit_never_handsOver _ _ hlife (show (0x2000 : UInt64) ≠ 0 by decide) 0x9000
  exact ⟨_, _, hlife, rfl, rfl, a, q, hq, hnot, hcur⟩

/-- After boot the idle thread at 0x2000 is ready; the boot thread exits, and 0x2000 does not run. -/
theorem idle_not_run_after_exit :
    ¬ ∀ s h, Life s h → ∀ a q, ReadyList s (a :: q) → ∀ rsp, HandsOver rsp s a q := by
  intro hall
  have hlife : Life _ _ := Life.init blankMemory 0x100000 0x1000 0x2000 0x3000
    ⟨by decide, by decide⟩ ⟨⟨by decide, by decide⟩, ⟨by decide, by decide⟩⟩
  have hlist : ReadyList
      (schedulerInit 0x100000 0x1000 0x2000 0x3000 (State.initial blankMemory)) [0x2000] :=
    ⟨⟨rfl, by decide, rfl⟩, rfl⟩
  have hcur := (hall _ _ hlife 0x2000 [] hlist 0x9000).current
  exact absurd hcur (by decide)

end MinOS.Scheduler
