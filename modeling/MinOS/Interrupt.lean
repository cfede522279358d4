/-
# MinOS.Interrupt — the IRQ stubs and `irq_common` of `kernel/idt.c`.

The processor pushes its five words, the stub the vector and `irq_common` fifteen registers; then the stack
pointer is kept in `r12`, rounded down to 16 and lowered by the home area, and `irq_dispatch` is called, by the
convention with the first argument in `rcx`. On the way back everything is popped from where `r12` points.
All of that is executed instruction by instruction (`MinOS.Lib.Amd64`), from any address for the processor's
frame, so for any alignment.

Entry and exit cancel out. What does not fit is the C structure laid over the pushed words: the registers
lie on the stack in the order opposite to that of its fields.
-/
import MinOS.Lib.Amd64
import MinOS.Lib.Word

namespace MinOS.Interrupt

open Amd64

/-! ## The instructions -/

/-- `pushq $v`, and what the processor pushes itself -/
def pushValue (v : UInt64) (c : Cpu) : Cpu :=
  { c.set .rsp (c.regs .rsp - 8) with mem := store c.mem (c.regs .rsp - 8) v }

/-- What the processor saves of the interrupted program besides its stack pointer -/
structure Context where
  rip : UInt64
  cs : UInt64
  rflags : UInt64
  ss : UInt64

/-- The words the processor pushes, the last one first -/
def cpuFrame (x : Context) (c : Cpu) : List UInt64 := [x.rip, x.cs, x.rflags, c.regs .rsp, x.ss]

/-- The delivery of an interrupt. `base` is where the processor's frame ends: the interrupted stack pointer,
or what the processor made of it. -/
def deliver (x : Context) (base : UInt64) (c : Cpu) : Cpu :=
  pushValue x.rip (pushValue x.cs (pushValue x.rflags
    (pushValue (c.regs .rsp) (pushValue x.ss (c.set .rsp base)))))

/-- `IRQ_STUB(n)` -/
def irqStub (n : UInt64) (c : Cpu) : Cpu := pushValue n c

/-- The registers `irq_common` pushes, in order -/
def saves : List Reg :=
  [.rax, .rcx, .rdx, .rbx, .rbp, .rsi, .rdi, .r8, .r9, .r10, .r11, .r12, .r13, .r14, .r15]

/-- The registers it pops, in order -/
def restores : List Reg :=
  [.r15, .r14, .r13, .r12, .r11, .r10, .r9, .r8, .rdi, .rsi, .rbp, .rbx, .rdx, .rcx, .rax]

/-- `andq $-16, %rsp`, `subq $32, %rsp` -/
def alignStack (c : Cpu) : Cpu := c.set .rsp ((c.regs .rsp &&& ~~~15) - 32)

/-- The stub and `irq_common` up to the first instruction of `irq_dispatch`; `ret` is the return address the
call pushes -/
def toDispatch (n ret : UInt64) (c : Cpu) : Cpu :=
  pushValue ret (alignStack (run [.mov .rsp .r12, .mov .rsp .rcx] (run (saves.map Instr.push) (irqStub n c))))

/-- `irq_common` from the instruction after the call up to `iretq` -/
def fromDispatch (c : Cpu) : Cpu :=
  let d := run (restores.map Instr.pop) (exec (.mov .r12 .rsp) c)
  d.set .rsp (d.regs .rsp + 8)

/-- An IRQ stub and `irq_common` up to `iretq`; `dispatch` is the body of `irq_dispatch` up to its `ret`. If that goes
to another address than the one the call pushed, `irq_common` does not go on. -/
def irqCommon (dispatch : Cpu → Cpu) (n ret : UInt64) (c : Cpu) : Option Cpu :=
  let d := exec .ret (dispatch (toDispatch n ret c))
  if d.rip = ret then some (fromDispatch d) else none

/-! ## What `irq_dispatch` keeps -/

/-- The non-volatile registers and the stack pointer -/
def nonVolatile : List Reg := [.rbx, .rbp, .rsi, .rdi, .r12, .r13, .r14, .r15, .rsp]

/-- Called in the state `e`, above whose return address lies the home area, the function keeps the
non-volatile registers and its return address, and writes nothing from the end of the home area up to `base`, the end
of the stack in use. -/
structure Keeps (dispatch : Cpu → Cpu) (e : Cpu) (base : UInt64) : Prop where
  regs : ∀ r ∈ nonVolatile, (dispatch e).regs r = e.regs r
  returnAddress : ∀ y, Within (e.regs .rsp) 8 y → (dispatch e).mem y = e.mem y
  stack : ∀ y, Within (e.regs .rsp + 40) (base - (e.regs .rsp + 40)).toNat y →
    (dispatch e).mem y = e.mem y

/-! ## Addresses on the stack -/

/-- The rounded stack pointer and what rounding took off -/
theorem align_add (sp : UInt64) : (sp &&& ~~~15) + (sp &&& 15) = sp := by
  apply UInt64.toNat_inj.mp
  have hlt := sp.toNat_lt
  rw [UInt64.toNat_add, Word.toNat_and_not_low (k := 4) sp 15 rfl, Word.toNat_and_low (k := 4) sp 15 rfl]
  omega

theorem toNat_and_15_lt (sp : UInt64) : (sp &&& 15).toNat < 16 := by
  rw [Word.toNat_and_low (k := 4) sp 15 rfl]
  omega

/-! ## Pushed values -/

variable {c d : Cpu} {v : UInt64} {ws : List UInt64}

@[simp] theorem pushValue_rsp (v : UInt64) (c : Cpu) : (pushValue v c).regs .rsp = c.regs .rsp - 8 :=
  set_regs_self c .rsp _

theorem pushValue_regs {r : Reg} (v : UInt64) (c : Cpu) (hr : r ≠ .rsp) :
    (pushValue v c).regs r = c.regs r := set_regs_of_ne hr _

@[simp] theorem pushValue_mem (v : UInt64) (c : Cpu) :
    (pushValue v c).mem = store c.mem (c.regs .rsp - 8) v := rfl

theorem frame_pushValue (hframe : Frame c.mem (c.regs .rsp) ws) (hlen : 8 * (ws.length + 1) ≤ 2 ^ 64) :
    Frame (pushValue v c).mem ((pushValue v c).regs .rsp) (v :: ws) := by
  rw [pushValue_rsp, pushValue_mem]
  exact hframe.push v hlen

/-- After the delivery the processor's frame is on the stack. -/
theorem deliver_frame (x : Context) (base : UInt64) (c : Cpu) :
    Frame (deliver x base c).mem ((deliver x base c).regs .rsp) (cpuFrame x c) := by
  have hstart : Frame (c.set .rsp base).mem ((c.set .rsp base).regs .rsp) [] := trivial
  have h1 := frame_pushValue (v := x.ss) hstart (by simp)
  have h2 := frame_pushValue (v := c.regs .rsp) h1 (by simp)
  have h3 := frame_pushValue (v := x.rflags) h2 (by simp)
  have h4 := frame_pushValue (v := x.cs) h3 (by simp)
  exact frame_pushValue (v := x.rip) h4 (by simp)

theorem deliver_regs {r : Reg} (x : Context) (base : UInt64) (c : Cpu) (hr : r ≠ .rsp) :
    (deliver x base c).regs r = c.regs r := by
  simp only [deliver, pushValue_regs _ _ hr]
  exact set_regs_of_ne hr _

theorem deliver_rsp (x : Context) (base : UInt64) (c : Cpu) :
    (deliver x base c).regs .rsp = base - 40 := by
  have h40 : (40 : UInt64) = 8 + 8 + 8 + 8 + 8 := rfl
  simp only [deliver, pushValue_rsp, set_regs_self]
  rw [h40]
  simp only [sub_add_eq]

/-! ## At the call -/

/-- The stack at the call: fifteen registers, the vector, the processor's frame -/
def frameWords (x : Context) (n : UInt64) (c : Cpu) : List UInt64 :=
  restores.map c.regs ++ n :: cpuFrame x c

/-- Where the registers end up: 128 bytes below the processor's frame, 168 below its end -/
def frameBase (base : UInt64) : UInt64 := base - 168

/-- The state in which `irq_dispatch` starts, as far as it and the way back depend on it -/
structure AtDispatch (x : Context) (n base : UInt64) (c e : Cpu) : Prop where
  r12 : e.regs .r12 = frameBase base
  rcx : e.regs .rcx = frameBase base
  rsp : e.regs .rsp + 40 = frameBase base &&& ~~~15
  frame : Frame e.mem (frameBase base) (frameWords x n c)
  cpu : ∀ y, Within (base - 40) 40 y → e.mem y = (deliver x base c).mem y

theorem pushes_run (x : Context) (n base : UInt64) (c : Cpu) :
    Pushed saves (n :: cpuFrame x c) (irqStub n (deliver x base c))
      (run (saves.map Instr.push) (irqStub n (deliver x base c))) :=
  pushed_run (by decide) (frame_pushValue (deliver_frame x base c) (by simp [cpuFrame]))
    (by simp [cpuFrame, saves])

theorem pushes_rsp (x : Context) (n base : UInt64) (c : Cpu) :
    (run (saves.map Instr.push) (irqStub n (deliver x base c))).regs .rsp = frameBase base := by
  have h168 : (168 : UInt64) = 40 + 8 + words saves.length := rfl
  rw [(pushes_run x n base c).rsp, irqStub, pushValue_rsp, deliver_rsp, frameBase, h168, sub_add_eq,
    sub_add_eq]

theorem saves_reverse : saves.reverse = restores := rfl

theorem pushes_frame (x : Context) (n base : UInt64) (c : Cpu) :
    Frame (run (saves.map Instr.push) (irqStub n (deliver x base c))).mem (frameBase base)
      (frameWords x n c) := by
  have hframe := (pushes_run x n base c).frame
  have hregs : restores.map (irqStub n (deliver x base c)).regs = restores.map c.regs := by
    apply List.map_congr_left
    intro r hr
    have hne : r ≠ .rsp := by
      rintro rfl
      exact absurd hr (by decide)
    rw [irqStub, pushValue_regs n _ hne, deliver_regs x base c hne]
  rw [pushes_rsp, saves_reverse, hregs] at hframe
  exact hframe

/-- The end of the frame, counted from where the registers end up -/
theorem sub_40_eq (base : UInt64) : base - 40 = frameBase base + 128 := by
  have h168 : (168 : UInt64) = 40 + 128 := rfl
  rw [frameBase, h168, sub_add_eq, UInt64.sub_add_cancel]

/-- Neither the pushes nor the vector touch the processor's frame. -/
theorem pushes_cpu (x : Context) (n base : UInt64) (c : Cpu) (y : UInt64) (hy : Within (base - 40) 40 y) :
    (run (saves.map Instr.push) (irqStub n (deliver x base c))).mem y = (deliver x base c).mem y := by
  rw [sub_40_eq, within_add_iff (by decide)] at hy
  have h128 : (128 : UInt64).toNat = 128 := rfl
  rw [(pushes_run x n base c).outside y]
  · have hslot : (deliver x base c).regs .rsp - 8 = frameBase base + 120 := by
      have h120 : (128 : UInt64) = 120 + 8 := rfl
      rw [deliver_rsp, sub_40_eq, h120, ← UInt64.add_assoc, UInt64.add_sub_cancel]
    apply store_of_not_within
    rw [hslot, within_add_iff (by decide)]
    have h120 : (120 : UInt64).toNat = 120 := rfl
    omega
  · rw [pushes_rsp]
    intro hin
    have hlen : saves.length = 15 := rfl
    rw [hlen, Within] at hin
    omega

/-- The return address lies 40 bytes below the rounded stack pointer: outside of everything saved. -/
theorem not_within_return {sp y : UInt64} (hy : (y - sp).toNat < 168) :
    ¬ Within ((sp &&& ~~~15) - 32 - 8) 8 y := by
  have hlow := toNat_and_15_lt sp
  have h40 : (sp &&& ~~~15) - 32 - 8 + 40 = sp &&& ~~~15 := by
    have hsum : (40 : UInt64) = 8 + 32 := rfl
    rw [hsum, ← UInt64.add_assoc, UInt64.sub_add_cancel, UInt64.sub_add_cancel]
  have hin : Within (((sp &&& ~~~15) - 32 - 8) + (40 + (sp &&& 15))) 168 y := by
    rw [← UInt64.add_assoc, h40, align_add]
    exact hy
  have hoffset : (40 + (sp &&& 15)).toNat = 40 + (sp &&& 15).toNat := by
    have h40' : (40 : UInt64).toNat = 40 := rfl
    rw [UInt64.toNat_add, h40']
    omega
  rw [within_add_iff (by omega)] at hin
  rw [Within]
  omega

/-- The processor's frame ends what is saved. -/
theorem lt_of_within_cpuFrame {base y : UInt64} (hy : Within (base - 40) 40 y) :
    (y - frameBase base).toNat < 168 := by
  have h128 : (128 : UInt64).toNat = 128 := rfl
  rw [sub_40_eq, within_add_iff (by decide)] at hy
  omega

theorem atDispatch_toDispatch (x : Context) (n ret base : UInt64) (c : Cpu) :
    AtDispatch x n base c (toDispatch n ret (deliver x base c)) := by
  have hrsp := pushes_rsp x n base c
  have hframe := pushes_frame x n base c
  have hcpu := pushes_cpu x n base c
  rw [toDispatch]
  generalize run (saves.map Instr.push) (irqStub n (deliver x base c)) = d at *
  have hmem : (pushValue ret (alignStack (run [.mov .rsp .r12, .mov .rsp .rcx] d))).mem =
      store d.mem ((frameBase base &&& ~~~15) - 32 - 8) ret := by
    rw [← hrsp]
    rfl
  refine ⟨hrsp, hrsp, ?_, ?_, ?_⟩
  · have h40 : (40 : UInt64) = 8 + 32 := rfl
    rw [pushValue_rsp, alignStack, set_regs_self, h40, ← UInt64.add_assoc, UInt64.sub_add_cancel,
      UInt64.sub_add_cancel, ← hrsp]
    rfl
  · rw [hmem]
    refine hframe.congr (by simp [frameWords, restores, cpuFrame]) fun y hy => ?_
    exact store_of_not_within (not_within_return hy)
  · intro y hy
    rw [hmem, store_of_not_within (not_within_return (lt_of_within_cpuFrame hy)), hcpu y hy]

/-! ## The way back -/

variable {dispatch : Cpu → Cpu} {x : Context} {n ret base : UInt64} {e : Cpu}

/-- What `irq_dispatch` keeps covers everything saved. -/
theorem Keeps.same (hkeep : Keeps dispatch e base) (hcall : AtDispatch x n base c e) {y : UInt64}
    (hy : (y - frameBase base).toNat < 168) : (dispatch e).mem y = e.mem y := by
  have hlow := toNat_and_15_lt (frameBase base)
  apply hkeep.stack
  rw [hcall.rsp]
  -- The stack in use is 168 bytes and what the rounding took off.
  have hlength : base - (frameBase base &&& ~~~15) = 168 + (frameBase base &&& 15) := by
    have hend : base = frameBase base + 168 := (UInt64.sub_add_cancel base 168).symm
    have hsplit := align_add (frameBase base)
    calc base - (frameBase base &&& ~~~15)
        = (frameBase base &&& ~~~15) + (frameBase base &&& 15) + 168 - (frameBase base &&& ~~~15) := by
          rw [hsplit, ← hend]
      _ = 168 + (frameBase base &&& 15) := by
          rw [UInt64.add_assoc, UInt64.add_comm, UInt64.add_sub_cancel, UInt64.add_comm]
  have hnat : (168 + (frameBase base &&& 15)).toNat = 168 + (frameBase base &&& 15).toNat := by
    have h168 : (168 : UInt64).toNat = 168 := rfl
    rw [UInt64.toNat_add, h168]
    omega
  have hin : Within ((frameBase base &&& ~~~15) + (frameBase base &&& 15)) 168 y := by
    rw [align_add]
    exact hy
  rw [within_add_iff (by omega)] at hin
  rw [hlength, hnat, Within]
  omega

/-- The pops assign every register what it held, whatever it holds now. -/
theorem assign_restores (g f : Reg → UInt64) (r : Reg) (hr : r ≠ .rsp) :
    assign restores (restores.map g) f r = g r := by
  cases r <;> first | rfl | exact absurd rfl hr

/-- The call leaves its return address at the top of the stack. -/
theorem load_toDispatch (n ret : UInt64) (c : Cpu) :
    load (toDispatch n ret c).mem ((toDispatch n ret c).regs .rsp) = ret := by
  rw [toDispatch, pushValue_rsp, pushValue_mem, load_store]

/-- `irq_dispatch` returns to where it was called. -/
theorem Keeps.returns (hkeep : Keeps dispatch e base) (hret : load e.mem (e.regs .rsp) = ret) :
    (exec .ret (dispatch e)).rip = ret := by
  show load (dispatch e).mem ((dispatch e).regs .rsp) = ret
  rw [hkeep.regs .rsp (by decide), load_congr hkeep.returnAddress, hret]

/-- The stack pointer that was kept in `r12` -/
theorem rsp_of_returned (hkeep : Keeps dispatch e base) (hcall : AtDispatch x n base c e) :
    (exec (.mov .r12 .rsp) (exec .ret (dispatch e))).regs .rsp = frameBase base := by
  show ((exec .ret (dispatch e)).set .rsp ((exec .ret (dispatch e)).regs .r12)).regs .rsp = _
  rw [set_regs_self, exec_ret_regs (by decide), hkeep.regs .r12 (by decide), hcall.r12]

theorem fromDispatch_popped (hkeep : Keeps dispatch e base) (hcall : AtDispatch x n base c e) :
    Popped restores (restores.map c.regs) (exec (.mov .r12 .rsp) (exec .ret (dispatch e)))
      (run (restores.map Instr.pop) (exec (.mov .r12 .rsp) (exec .ret (dispatch e)))) := by
  have hmem : (exec (.mov .r12 .rsp) (exec .ret (dispatch e))).mem = (dispatch e).mem := rfl
  have hframe : Frame (exec (.mov .r12 .rsp) (exec .ret (dispatch e))).mem
      ((exec (.mov .r12 .rsp) (exec .ret (dispatch e))).regs .rsp)
      (restores.map c.regs ++ n :: cpuFrame x c) := by
    rw [rsp_of_returned hkeep hcall, hmem]
    exact hcall.frame.congr (by simp [frameWords, restores, cpuFrame]) fun y hy => hkeep.same hcall hy
  exact popped_run (by decide) hframe (by simp)

/-- The state at `iretq`: the registers of the interrupted program, and the stack pointer at the
processor's frame -/
structure AtIret (x : Context) (base : UInt64) (c d : Cpu) : Prop where
  regs : ∀ r, r ≠ .rsp → d.regs r = c.regs r
  rsp : d.regs .rsp = (deliver x base c).regs .rsp
  frame : Frame d.mem (d.regs .rsp) (cpuFrame x c)
  unmodified : ∀ y, Within ((deliver x base c).regs .rsp) 40 y → d.mem y = (deliver x base c).mem y

theorem atIret_fromDispatch (hkeep : Keeps dispatch e base) (hcall : AtDispatch x n base c e) :
    AtIret x base c (fromDispatch (exec .ret (dispatch e))) := by
  have hpop := fromDispatch_popped hkeep hcall
  have hmem : (fromDispatch (exec .ret (dispatch e))).mem = (dispatch e).mem := hpop.mem
  have hrsp : (fromDispatch (exec .ret (dispatch e))).regs .rsp = base - 40 := by
    have h128 : (128 : UInt64) = words restores.length + 8 := rfl
    rw [fromDispatch, set_regs_self, hpop.rsp, rsp_of_returned hkeep hcall, sub_40_eq, h128, UInt64.add_assoc]
  have hsame : ∀ y, Within (base - 40) 40 y → (dispatch e).mem y = (deliver x base c).mem y := by
    intro y hy
    rw [hkeep.same hcall (lt_of_within_cpuFrame hy), hcall.cpu y hy]
  refine ⟨?_, ?_, ?_, ?_⟩
  · intro r hr
    rw [fromDispatch, set_regs_of_ne hr, hpop.regs r hr, assign_restores c.regs _ r hr]
  · rw [hrsp, deliver_rsp]
  · have hframe := deliver_frame x base c
    rw [deliver_rsp] at hframe
    rw [hrsp, hmem]
    exact hframe.congr (by simp [cpuFrame]) hsame
  · intro y hy
    rw [deliver_rsp] at hy
    rw [hmem]
    exact hsame y hy

/-- **Entry and exit cancel out.** Whatever the registers, wherever the processor's frame lies, and whatever
`irq_dispatch` does in its own frame, in its home area and away from the stack: `iretq` is reached, and there all
registers are those of the interrupted program and the stack pointer is at the processor's frame, which is
unmodified. -/
theorem irq_preserves_context (dispatch : Cpu → Cpu) (x : Context) (n ret base : UInt64) (c : Cpu)
    (hkeep : Keeps dispatch (toDispatch n ret (deliver x base c)) base) :
    ∃ d, irqCommon dispatch n ret (deliver x base c) = some d ∧ AtIret x base c d := by
  have hreturns := hkeep.returns (load_toDispatch n ret (deliver x base c))
  exact ⟨_, if_pos hreturns, atIret_fromDispatch hkeep (atDispatch_toDispatch x n ret base c)⟩

/-- A function that writes only to addresses below the end of its home area, its return address excepted, on a stack
that does not run over the end of the address space, keeps the stack in use. -/
theorem keeps_of_writesBelow {dispatch : Cpu → Cpu} {e : Cpu} {base : UInt64}
    (hregs : ∀ r ∈ nonVolatile, (dispatch e).regs r = e.regs r)
    (hreturn : ∀ y, Within (e.regs .rsp) 8 y → (dispatch e).mem y = e.mem y)
    (hlow : e.regs .rsp + 40 ≤ base)
    (hbelow : ∀ y, e.regs .rsp + 40 ≤ y → (dispatch e).mem y = e.mem y) : Keeps dispatch e base := by
  refine ⟨hregs, hreturn, fun y hy => hbelow y ?_⟩
  rw [Within, UInt64.toNat_sub_of_le _ _ hlow] at hy
  rw [UInt64.le_iff_toNat_le] at hlow ⊢
  have hbase := base.toNat_lt
  have hylt := y.toNat_lt
  rw [UInt64.toNat_sub] at hy
  omega

/-- A handler that clears `rax` and writes to its home area -/
def scribble (e : Cpu) : Cpu := { e.set .rax 0 with mem := store e.mem (e.regs .rsp + 8) 0 }

/-- A program with every register 7, interrupted with its stack pointer at 0x1FFFF9 -/
def sevens : Cpu :=
  { regs := fun r => if r = .rsp then 0x1FFFF9 else 7, gsBase := 0, kernelGsBase := 0, rip := 0, mem := fun _ => 0 }

def someContext : Context := ⟨0x401000, 8, 0x202, 16⟩

theorem keeps_scribble : Keeps scribble (toDispatch 33 0x100000 (deliver someContext 0x1FFFF9 sevens)) 0x1FFFF9 := by
  have hrsp := (atDispatch_toDispatch someContext 33 0x100000 0x1FFFF9 sevens).rsp
  generalize toDispatch 33 0x100000 (deliver someContext 0x1FFFF9 sevens) = e at hrsp
  refine keeps_of_writesBelow (fun r hr => ?_) (fun y hy => ?_) ?_ (fun y hy => ?_)
  · apply set_regs_of_ne
    rintro rfl
    exact absurd hr (by decide)
  · -- the home area begins behind the return address
    apply store_of_not_within
    rw [within_add_iff (by decide)]
    have h8 : (8 : UInt64).toNat = 8 := rfl
    rw [Within] at hy
    omega
  · rw [hrsp]
    decide
  · apply store_of_not_within
    have hstart : e.regs .rsp + 8 = 0x1FFF30 := by
      have h40 : (40 : UInt64) = 8 + 32 := rfl
      rw [h40, ← UInt64.add_assoc] at hrsp
      rw [← UInt64.add_sub_cancel (e.regs .rsp + 8) 32, hrsp]
      rfl
    rw [hrsp, UInt64.le_iff_toNat_le] at hy
    have hvalue : (frameBase 0x1FFFF9 &&& ~~~15).toNat = 0x1FFF50 := rfl
    have hylt := y.toNat_lt
    have hbase : (0x1FFF30 : UInt64).toNat = 0x1FFF30 := rfl
    rw [hstart, Within, UInt64.toNat_sub, hbase]
    omega

theorem irq_preserves_context_sevens :
    ∃ d, irqCommon scribble 33 0x100000 (deliver someContext 0x1FFFF9 sevens) = some d ∧
      AtIret someContext 0x1FFFF9 sevens d :=
  irq_preserves_context scribble someContext 33 0x100000 0x1FFFF9 sevens keeps_scribble

/-! ## The structure laid over the saved words -/

/-- The fields of `struct interrupt_frame` -/
inductive Field
  | rax | rcx | rdx | rbx | rbp | rsi | rdi | r8
  | r9 | r10 | r11 | r12 | r13 | r14 | r15
  | vector | rip | cs | rflags | rsp | ss
  deriving DecidableEq, Repr

/-- `struct interrupt_frame`, in its order -/
def interruptFrame : List Field :=
  [.rax, .rcx, .rdx, .rbx, .rbp, .rsi, .rdi, .r8, .r9, .r10, .r11,
    .r12, .r13, .r14, .r15, .vector, .rip, .cs, .rflags, .rsp, .ss]

/-- `frame->f` -/
def readField (m : Memory) (frame : UInt64) (f : Field) : UInt64 :=
  load m (frame + words (interruptFrame.idxOf f))

/-- What the field's name says it holds -/
def Field.named (x : Context) (n : UInt64) (c : Cpu) : Field → UInt64
  | .rax => c.regs .rax
  | .rcx => c.regs .rcx
  | .rdx => c.regs .rdx
  | .rbx => c.regs .rbx
  | .rbp => c.regs .rbp
  | .rsi => c.regs .rsi
  | .rdi => c.regs .rdi
  | .r8 => c.regs .r8
  | .r9 => c.regs .r9
  | .r10 => c.regs .r10
  | .r11 => c.regs .r11
  | .r12 => c.regs .r12
  | .r13 => c.regs .r13
  | .r14 => c.regs .r14
  | .r15 => c.regs .r15
  | .vector => n
  | .rip => x.rip
  | .cs => x.cs
  | .rflags => x.rflags
  | .rsp => c.regs .rsp
  | .ss => x.ss

/-- What lies at its place -/
def Field.held (x : Context) (n : UInt64) (c : Cpu) : Field → UInt64
  | .rax => c.regs .r15
  | .rcx => c.regs .r14
  | .rdx => c.regs .r13
  | .rbx => c.regs .r12
  | .rbp => c.regs .r11
  | .rsi => c.regs .r10
  | .rdi => c.regs .r9
  | .r8 => c.regs .r8
  | .r9 => c.regs .rdi
  | .r10 => c.regs .rsi
  | .r11 => c.regs .rbp
  | .r12 => c.regs .rbx
  | .r13 => c.regs .rdx
  | .r14 => c.regs .rcx
  | .r15 => c.regs .rax
  | f => f.named x n c

/-- The frame handed to `irq_dispatch` describes the interrupted program. -/
def Describes (x : Context) (n : UInt64) (c e : Cpu) : Prop :=
  ∀ f, readField e.mem (e.regs .rcx) f = f.named x n c

theorem readField_eq (hcall : AtDispatch x n base c e) (f : Field) :
    readField e.mem (e.regs .rcx) f = f.held x n c := by
  rw [readField, hcall.rcx]
  apply hcall.frame.load_eq
  cases f <;> rfl

/-- **The frame and its structure.** Of the fields of `struct interrupt_frame` those of the registers hold each
other's values, first and last exchanged: they are right if and only if those values agree. -/
theorem frame_describes_iff (x : Context) (n ret base : UInt64) (c : Cpu) :
    Describes x n c (toDispatch n ret (deliver x base c)) ↔
      c.regs .rax = c.regs .r15 ∧ c.regs .rcx = c.regs .r14 ∧ c.regs .rdx = c.regs .r13 ∧
      c.regs .rbx = c.regs .r12 ∧ c.regs .rbp = c.regs .r11 ∧ c.regs .rsi = c.regs .r10 ∧
      c.regs .rdi = c.regs .r9 := by
  have hread := readField_eq (atDispatch_toDispatch x n ret base c)
  have hfield : Describes x n c (toDispatch n ret (deliver x base c)) ↔
      ∀ f : Field, f.held x n c = f.named x n c := by
    simp only [Describes, hread]
  rw [hfield]
  constructor
  · intro h
    exact ⟨(h .rax).symm, (h .rcx).symm, (h .rdx).symm, (h .rbx).symm, (h .rbp).symm, (h .rsi).symm,
      (h .rdi).symm⟩
  · rintro ⟨hrax, hrcx, hrdx, hrbx, hrbp, hrsi, hrdi⟩ f
    cases f <;> simp [Field.held, Field.named, hrax, hrcx, hrdx, hrbx, hrbp, hrsi, hrdi]

/-- With 1 in `rax` and 0 in `r15`, `frame->rax` is 0. -/
theorem frame_misdescribes :
    ¬ Describes someContext 33 { sevens with regs := fun r => if r = .rax then 1 else 0 }
      (toDispatch 33 0x100000 (deliver someContext 0x200000
        { sevens with regs := fun r => if r = .rax then 1 else 0 })) := by
  intro h
  have hrax := (readField_eq (atDispatch_toDispatch _ 33 0x100000 0x200000 _) .rax).symm.trans (h .rax)
  exact absurd hrax (by decide)

end MinOS.Interrupt
