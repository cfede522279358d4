/-
# MinOS.Syscall — the entry stub `kernel/syscall_entry.s`.

The stub is executed instruction by instruction (`MinOS.Lib.Amd64`) around a call of `syscall_dispatch`,
which is any function on the processor that keeps the callee-saved registers and its caller's stack.

Neither half of the stub lines up. The moves that should shift the arguments up by one register run from
the first argument on, so each overwrites the source of the next: three arguments are `rdi`, the last is
`r10`, and `rax` is not among them. Of the seventeen words pushed sixteen are popped, and from the fourth
on one register too late; the third pop overwrites the result. So the stub keeps its convention only
where none of that can be seen: when all registers hold one value, and the dispatcher returns it.
-/
import MinOS.Lib.Amd64

namespace MinOS.Syscall

open Amd64

/-! ## The dispatcher -/

/-- A handler, as far as its result goes -/
def Handler : Type := UInt64 → UInt64 → UInt64 → UInt64 → UInt64 → UInt64

/-- `syscall_table` as `syscall_init` fills it: SYSCALL_WRITE, READ, OPEN, CLOSE, YIELD and EXIT, whose
handlers all return 0. What the last two do besides is in `MinOS.Scheduler`. -/
def syscallTable (num : Nat) : Option Handler :=
  if num ∈ [0, 1, 2, 3, 24, 60] then some fun _ _ _ _ _ => 0 else none

/-- `syscall_dispatch` -/
def syscallDispatch (num a1 a2 a3 a4 a5 : UInt64) : UInt64 :=
  if num ≥ 256 then -1
  else
    match syscallTable num.toNat with
    | none => -1
    | some handler => handler a1 a2 a3 a4 a5

/-- Its call, by the System V calling convention: arguments in `rdi`, `rsi`, `rdx`, `rcx`, `r8` and `r9`,
result in `rax` -/
def callDispatch (c : Cpu) : Cpu :=
  c.set .rax (syscallDispatch (c.regs .rdi) (c.regs .rsi) (c.regs .rdx) (c.regs .rcx) (c.regs .r8)
    (c.regs .r9))

/-! ## The stub -/

/-- `swapgs`, `movq %rsp, %gs:0`, `movq %gs:8, %rsp` -/
def prologue : List Instr := [.swapgs, .storeGs .rsp 0, .loadGs 8 .rsp]

/-- The registers pushed, in order -/
def pushes : List Reg :=
  [.r15, .r14, .r13, .r12, .r11, .r10, .r9, .r8, .rdi, .rsi, .rbp, .rbx, .rdx, .rcx, .rax, .rcx, .r11]

/-- The moves before the call -/
def moves : List Instr :=
  [.mov .rdi .rsi, .mov .rsi .rdx, .mov .rdx .rcx, .mov .r10 .r8, .mov .r8 .r9, .mov .r9 .rax]

/-- The registers popped, in order -/
def pops : List Reg :=
  [.r11, .rcx, .rax, .rdx, .rbx, .rbp, .rsi, .rdi, .r9, .r8, .r10, .r11, .r12, .r13, .r14, .r15]

/-- `movq %gs:0, %rsp`, `swapgs` -/
def epilogue : List Instr := [.loadGs 0 .rsp, .swapgs]

/-- `syscall_entry` up to `call syscall_dispatch` -/
def toCall (c : Cpu) : Cpu := run (prologue ++ (pushes.map Instr.push ++ moves)) c

/-- `syscall_entry` up to `sysretq`; `dispatch` is the call of `syscall_dispatch` and its return -/
def syscallEntry (dispatch : Cpu → Cpu) (c : Cpu) : Cpu :=
  run (pops.map Instr.pop ++ epilogue) (dispatch (toCall c))

/-! ## What the stub is for -/

/-- The registers a function keeps, by the System V calling convention -/
def calleeSaved : List Reg := [.rbx, .rbp, .rsp, .r12, .r13, .r14, .r15]

/-- The dispatcher keeps the callee-saved registers and, of its caller's memory, the words on the stack
and the saved stack pointer at `%gs:0`. -/
structure Preserves (dispatch : Cpu → Cpu) (c : Cpu) : Prop where
  regs : ∀ r ∈ calleeSaved, (dispatch c).regs r = c.regs r
  stack : ∀ x, Within (c.regs .rsp) (8 * pushes.length) x → (dispatch c).mem x = c.mem x
  gsBase : (dispatch c).gsBase = c.gsBase
  slot : load (dispatch c).mem c.gsBase = load c.mem c.gsBase

/-- The kernel stack whose top `%gs:8` holds, as far as the stub uses it, is apart from `%gs:0`. -/
def StackApart (c : Cpu) : Prop :=
  Apart c.kernelGsBase 8 (load c.mem (c.kernelGsBase + 8) - words pushes.length) (8 * pushes.length)

/-- The calling convention: number in `rax`, arguments in `rdi`, `rsi`, `rdx`, `r10`, `r8`; result in
`rax`, every other register as it was. -/
structure Convention (dispatch : Cpu → Cpu) (c : Cpu) : Prop where
  num : (toCall c).regs .rdi = c.regs .rax
  a1 : (toCall c).regs .rsi = c.regs .rdi
  a2 : (toCall c).regs .rdx = c.regs .rsi
  a3 : (toCall c).regs .rcx = c.regs .rdx
  a4 : (toCall c).regs .r8 = c.regs .r10
  a5 : (toCall c).regs .r9 = c.regs .r8
  result : (syscallEntry dispatch c).regs .rax = (dispatch (toCall c)).regs .rax
  kept : ∀ r, r ≠ .rax → (syscallEntry dispatch c).regs r = c.regs r

/-! ## The call -/

/-- After the prologue: on the kernel stack, with the user's stack pointer at `%gs:0` -/
theorem prologue_regs (c : Cpu) {r : Reg} (hr : r ≠ .rsp) : (run prologue c).regs r = c.regs r :=
  set_regs_of_ne hr _

theorem prologue_rsp (c : Cpu) :
    (run prologue c).regs .rsp = load c.mem (c.kernelGsBase + 8) := by
  have hapart : Apart (c.kernelGsBase + 8) 8 (c.kernelGsBase + 0) 8 := by
    intro x hx hx'
    unfold Within at hx hx'
    rw [toNat_sub_add] at hx hx'
    have hlt := (x - c.kernelGsBase).toNat_lt
    have h8 : (8 : UInt64).toNat = 8 := rfl
    have h0 : (0 : UInt64).toNat = 0 := rfl
    omega
  have hset : (run prologue c).regs .rsp =
      load (store c.mem (c.kernelGsBase + 0) (c.regs .rsp)) (c.kernelGsBase + 8) :=
    set_regs_self _ _ _
  rw [hset, load_store_of_apart hapart]

theorem prologue_slot (c : Cpu) : load (run prologue c).mem c.kernelGsBase = c.regs .rsp := by
  show load (store c.mem (c.kernelGsBase + 0) (c.regs .rsp)) c.kernelGsBase = c.regs .rsp
  rw [UInt64.add_zero, load_store]

/-- After the pushes -/
theorem pushes_run (c : Cpu) :
    Pushed pushes [] (run prologue c) (run (pushes.map Instr.push) (run prologue c)) :=
  pushed_run (by decide) trivial (by decide)

theorem toCall_eq (c : Cpu) :
    toCall c = run moves (run (pushes.map Instr.push) (run prologue c)) := by
  unfold toCall
  rw [run_append, run_append]

/-- The words on the stack at the call, from its top -/
def frameWords (c : Cpu) : List UInt64 :=
  [c.regs .r11, c.regs .rcx, c.regs .rax, c.regs .rcx, c.regs .rdx, c.regs .rbx, c.regs .rbp,
    c.regs .rsi, c.regs .rdi, c.regs .r8, c.regs .r9, c.regs .r10, c.regs .r11, c.regs .r12,
    c.regs .r13, c.regs .r14]

/-- The state at the call, as far as the pops and the epilogue read it -/
structure AtCall (c d : Cpu) : Prop where
  rsp : d.regs .rsp = load c.mem (c.kernelGsBase + 8) - words pushes.length
  frame : Frame d.mem (d.regs .rsp) (frameWords c ++ [c.regs .r15])
  gsBase : d.gsBase = c.kernelGsBase

/-- The moves write neither to memory nor to `rsp`; they copy `rdi` and `r10`. -/
theorem moves_run (d : Cpu) :
    (run moves d).regs .rsp = d.regs .rsp ∧ (run moves d).mem = d.mem ∧
      (run moves d).gsBase = d.gsBase ∧
      (run moves d).regs .rdi = d.regs .rdi ∧ (run moves d).regs .rsi = d.regs .rdi ∧
      (run moves d).regs .rdx = d.regs .rdi ∧ (run moves d).regs .rcx = d.regs .rdi ∧
      (run moves d).regs .r8 = d.regs .r10 ∧ (run moves d).regs .r9 = d.regs .r10 :=
  ⟨rfl, rfl, rfl, rfl, rfl, rfl, rfl, rfl, rfl⟩

theorem pushes_words (c : Cpu) :
    pushes.reverse.map (run prologue c).regs ++ [] = frameWords c ++ [c.regs .r15] := by
  have hmap : pushes.reverse.map (run prologue c).regs = pushes.reverse.map c.regs := by
    apply List.map_congr_left
    intro r hr
    apply prologue_regs
    rintro rfl
    exact absurd hr (by decide)
  rw [hmap, List.append_nil]
  rfl

theorem atCall_toCall (c : Cpu) : AtCall c (toCall c) := by
  have hpush := pushes_run c
  have hframe := hpush.frame
  rw [pushes_words] at hframe
  rw [toCall_eq]
  generalize run (pushes.map Instr.push) (run prologue c) = d at *
  obtain ⟨hrsp, hmem, hgs, -⟩ := moves_run d
  refine ⟨?_, ?_, ?_⟩
  · rw [hrsp, hpush.rsp, prologue_rsp]
  · rw [hmem, hrsp]
    exact hframe
  · rw [hgs, hpush.gsBase]
    rfl

/-- The arguments as the dispatcher receives them: `rdi` four times, then `r10` twice. -/
theorem toCall_arguments (c : Cpu) :
    (toCall c).regs .rdi = c.regs .rdi ∧ (toCall c).regs .rsi = c.regs .rdi ∧
      (toCall c).regs .rdx = c.regs .rdi ∧ (toCall c).regs .rcx = c.regs .rdi ∧
      (toCall c).regs .r8 = c.regs .r10 ∧ (toCall c).regs .r9 = c.regs .r10 := by
  have hpush := pushes_run c
  have hrdi := (hpush.regs .rdi (by decide)).trans (prologue_regs c (by decide))
  have hr10 := (hpush.regs .r10 (by decide)).trans (prologue_regs c (by decide))
  rw [toCall_eq]
  generalize run (pushes.map Instr.push) (run prologue c) = d at *
  obtain ⟨-, -, -, hargs⟩ := moves_run d
  rw [hrdi, hr10] at hargs
  exact hargs

/-! ## The return -/

/-- Where each register's value at `sysretq` comes from -/
def exitSource : Reg → Reg
  | .rax => .rax
  | .rcx => .rcx
  | .rdx => .rcx
  | .rbx => .rdx
  | .rbp => .rbx
  | .rsi => .rbp
  | .rdi => .rsi
  | .r9 => .rdi
  | .r8 => .r8
  | .r10 => .r9
  | .r11 => .r10
  | .r12 => .r11
  | .r13 => .r12
  | .r14 => .r13
  | .r15 => .r14
  | .rsp => .rsp

/-- The pops assign `exitSource`, whatever the registers held. -/
theorem assign_pops (c : Cpu) (f : Reg → UInt64) (r : Reg) (hr : r ≠ .rsp) :
    assign pops (frameWords c) f r = c.regs (exitSource r) := by
  cases r <;> first | rfl | exact absurd rfl hr

theorem syscallEntry_popped {dispatch : Cpu → Cpu} {c : Cpu} (hkeep : Preserves dispatch (toCall c)) :
    Popped pops (frameWords c) (dispatch (toCall c))
      (run (pops.map Instr.pop) (dispatch (toCall c))) := by
  have hcall := atCall_toCall c
  have hrsp : (dispatch (toCall c)).regs .rsp = (toCall c).regs .rsp := hkeep.regs .rsp (by decide)
  have hframe : Frame (dispatch (toCall c)).mem ((dispatch (toCall c)).regs .rsp)
      (frameWords c ++ [c.regs .r15]) := by
    rw [hrsp]
    apply hcall.frame.congr
    · show 8 * 17 ≤ 2 ^ 64
      decide
    · exact hkeep.stack
  exact popped_run (by decide) hframe rfl

theorem epilogue_rsp (d : Cpu) : (run epilogue d).regs .rsp = load d.mem d.gsBase := by
  show ((d.set .rsp (load d.mem (d.gsBase + 0))).regs .rsp) = load d.mem d.gsBase
  rw [set_regs_self, UInt64.add_zero]

theorem epilogue_regs (d : Cpu) {r : Reg} (hr : r ≠ .rsp) : (run epilogue d).regs r = d.regs r :=
  set_regs_of_ne hr _

/-- The user's stack pointer is at `%gs:0` when the dispatcher is called. -/
theorem toCall_slot {c : Cpu} (hapart : StackApart c) :
    load (toCall c).mem c.kernelGsBase = c.regs .rsp := by
  have hpush := pushes_run c
  rw [toCall_eq, (moves_run _).2.1, ← prologue_slot c]
  apply load_congr
  intro x hx
  apply hpush.outside
  rw [hpush.rsp, prologue_rsp]
  exact hapart x hx

/-- **What `syscall_entry` returns.** Every register takes its value at entry from `exitSource`, and the
stack pointer is what is in `%gs:0`. -/
theorem syscallEntry_regs {dispatch : Cpu → Cpu} {c : Cpu} (hkeep : Preserves dispatch (toCall c))
    (hapart : StackApart c) (r : Reg) :
    (syscallEntry dispatch c).regs r = c.regs (exitSource r) := by
  have hcall := atCall_toCall c
  have hpop := syscallEntry_popped hkeep
  unfold syscallEntry
  rw [run_append]
  by_cases hr : r = .rsp
  · subst hr
    rw [epilogue_rsp, hpop.mem, hpop.gsBase, hkeep.gsBase, hkeep.slot, hcall.gsBase,
      toCall_slot hapart]
    rfl
  · rw [epilogue_regs _ hr, hpop.regs r hr, assign_pops c _ r hr]

/-! ## When the convention is kept -/

/-- All registers but the stack pointer hold one value. -/
def AllEqual (c : Cpu) : Prop := ∀ r, r ≠ .rsp → c.regs r = c.regs .rax

/-- **The stub implements its convention exactly when there is nothing to tell its registers apart**: they
all hold one value at entry, and the dispatcher returns that value. -/
theorem convention_iff (dispatch : Cpu → Cpu) (c : Cpu) (hkeep : Preserves dispatch (toCall c))
    (hapart : StackApart c) :
    Convention dispatch c ↔ AllEqual c ∧ (dispatch (toCall c)).regs .rax = c.regs .rax := by
  obtain ⟨hrdi, hrsi, hrdx, hrcx, hr8, hr9⟩ := toCall_arguments c
  have hexit := syscallEntry_regs hkeep hapart
  constructor
  · intro h
    have hkept : ∀ r, r ≠ .rax → c.regs (exitSource r) = c.regs r := fun r hr =>
      (hexit r).symm.trans (h.kept r hr)
    -- the arguments tie `rax`, `rdi` and `r8` to the others, the pops tie the rest into one chain
    have hnum : c.regs .rdi = c.regs .rax := hrdi.symm.trans h.num
    have ha5 : c.regs .r10 = c.regs .r8 := hr9.symm.trans h.a5
    have hdi : c.regs .rsi = c.regs .rdi := hkept .rdi (by decide)
    have hsi : c.regs .rbp = c.regs .rsi := hkept .rsi (by decide)
    have hbp : c.regs .rbx = c.regs .rbp := hkept .rbp (by decide)
    have hbx : c.regs .rdx = c.regs .rbx := hkept .rbx (by decide)
    have hdx : c.regs .rcx = c.regs .rdx := hkept .rdx (by decide)
    have h9 : c.regs .rdi = c.regs .r9 := hkept .r9 (by decide)
    have h10 : c.regs .r9 = c.regs .r10 := hkept .r10 (by decide)
    have h11 : c.regs .r10 = c.regs .r11 := hkept .r11 (by decide)
    have h12 : c.regs .r11 = c.regs .r12 := hkept .r12 (by decide)
    have h13 : c.regs .r12 = c.regs .r13 := hkept .r13 (by decide)
    have h14 : c.regs .r13 = c.regs .r14 := hkept .r14 (by decide)
    have h15 : c.regs .r14 = c.regs .r15 := hkept .r15 (by decide)
    refine ⟨?_, h.result.symm.trans (hexit .rax)⟩
    intro r hr
    cases r <;> first | exact absurd rfl hr | simp_all only
  · rintro ⟨hall, hresult⟩
    refine ⟨?_, ?_, ?_, ?_, ?_, ?_, ?_, ?_⟩
    · rw [hrdi, hall .rdi (by decide)]
    · exact hrsi
    · rw [hrdx, hall .rdi (by decide), hall .rsi (by decide)]
    · rw [hrcx, hall .rdi (by decide), hall .rdx (by decide)]
    · exact hr8
    · rw [hr9, hall .r10 (by decide), hall .r8 (by decide)]
    · rw [hexit .rax]
      exact hresult.symm
    · intro r hr
      rw [hexit r]
      by_cases hsp : r = .rsp
      · rw [hsp]
        rfl
      · have hsource : exitSource r ≠ .rsp := by
          cases r <;> first | exact absurd rfl hsp | decide
        rw [hall _ hsource, hall r hsp]

theorem preserves_callDispatch (c : Cpu) : Preserves callDispatch c := by
  refine ⟨?_, fun _ _ => rfl, rfl, rfl⟩
  intro r hr
  apply set_regs_of_ne
  rintro rfl
  exact absurd hr (by decide)

/-- A kernel with its GS area at 0x100000 and its stack below 0x200000, entered with the registers `regs` -/
def entered (regs : Reg → UInt64) : Cpu :=
  { regs := regs
    gsBase := 0
    kernelGsBase := 0x100000
    rip := 0
    mem := store (fun _ => 0) (0x100000 + 8) 0x200000 }

theorem stackApart_entered (regs : Reg → UInt64) : StackApart (entered regs) := by
  have htop : load (entered regs).mem ((entered regs).kernelGsBase + 8) = 0x200000 :=
    load_store _ _ _
  unfold StackApart
  rw [htop]
  intro x hx hx'
  change (x - 0x100000).toNat < 8 at hx
  change (x - (0x100000 + 0xfff78)).toNat < 136 at hx'
  rw [toNat_sub_add] at hx'
  have hgap : (0xfff78 : UInt64).toNat = 0xfff78 := rfl
  omega

/-- An unknown system call with every register -1: the dispatcher returns -1, and nothing shows. -/
theorem convention_iff_all_ones : Convention callDispatch (entered fun _ => -1) := by
  have hargs := toCall_arguments (entered fun _ => -1)
  rw [convention_iff callDispatch (entered fun _ => -1) (preserves_callDispatch _)
    (stackApart_entered _)]
  refine ⟨fun _ _ => rfl, ?_⟩
  show (Cpu.set _ _ _).regs .rax = -1
  rw [set_regs_self, hargs.1]
  rfl

/-- `read(3, 0x7000, 16)`, called at 0x401000 -/
def readRegs : Reg → UInt64
  | .rax => 1
  | .rdi => 3
  | .rsi => 0x7000
  | .rdx => 16
  | .rcx => 0x401000
  | .r11 => 0x202
  | .rsp => 0x7ffff000
  | _ => 0

/-- `read` of descriptor 3 is dispatched as system call 3. -/
theorem read_dispatched_as_close :
    ¬ ∀ (dispatch : Cpu → Cpu) (c : Cpu), Preserves dispatch (toCall c) → StackApart c →
      Convention dispatch c := by
  intro hall
  have hread := hall callDispatch (entered readRegs) (preserves_callDispatch _)
    (stackApart_entered readRegs)
  have hnum : readRegs .rdi = readRegs .rax := (toCall_arguments (entered readRegs)).1.symm.trans hread.num
  exact absurd hnum (by decide)

end MinOS.Syscall
