/-
# Amd64 — straight-line assembly over registers, bytes and a stack.

The integer registers, the two GS bases and a byte-addressed memory, with the few instructions that entry
and switch routines are made of. A store writes the eight bytes from its address on, low end first, and
addresses wrap around.

What such routines need to know about the stack is in two rules: a sequence of pushes leaves the values of
the registers on it as a `Frame` and touches nothing else (`pushed_run`), and a sequence of pops assigns the
words of a frame, first word to first register (`popped_run`).
-/
import Mathlib.Logic.Function.Basic
import Mathlib.Algebra.Group.Nat.Defs
import MinOS.Lib.Bytes

namespace Amd64

open Bytes (leByte leNat leNat_congr leNat_leByte)

/-! ## Memory -/

/-- A byte for each address -/
def Memory : Type := UInt64 → UInt8

/-- `x` is one of the `n` bytes from `a` on. -/
def Within (a : UInt64) (n : Nat) (x : UInt64) : Prop := (x - a).toNat < n

instance (a : UInt64) (n : Nat) (x : UInt64) : Decidable (Within a n x) :=
  inferInstanceAs (Decidable (_ < _))

/-- The `n` bytes from `a` on and the `k` bytes from `b` on have none in common. -/
def Apart (a : UInt64) (n : Nat) (b : UInt64) (k : Nat) : Prop := ∀ x, Within a n x → ¬ Within b k x

/-- The eight bytes from `a` on -/
def load (m : Memory) (a : UInt64) : UInt64 :=
  UInt64.ofNat (leNat 8 fun k => m (a + UInt64.ofNat k))

/-- Write the eight bytes of `v` from `a` on. -/
def store (m : Memory) (a v : UInt64) : Memory := fun x =>
  if Within a 8 x then leByte v.toNat (x - a).toNat else m x

theorem store_of_not_within {m : Memory} {a v x : UInt64} (hx : ¬ Within a 8 x) :
    store m a v x = m x := if_neg hx

theorem sub_add_eq (x a d : UInt64) : x - (a + d) = x - a - d := by
  rw [UInt64.sub_eq_add_neg, UInt64.sub_eq_add_neg x a, UInt64.sub_eq_add_neg (x + -a) d,
    UInt64.add_assoc, UInt64.neg_add, UInt64.sub_eq_add_neg]

/-- The offset from a base moved up by `d` -/
theorem toNat_sub_add (x a d : UInt64) :
    (x - (a + d)).toNat = (2 ^ 64 - d.toNat + (x - a).toNat) % 2 ^ 64 := by
  rw [sub_add_eq, UInt64.toNat_sub]

/-- In a range that starts `d` bytes above `a` -/
theorem within_add_iff {a d y : UInt64} {n : Nat} (h : d.toNat + n ≤ 2 ^ 64) :
    Within (a + d) n y ↔ d.toNat ≤ (y - a).toNat ∧ (y - a).toNat < d.toNat + n := by
  have hlt := (y - a).toNat_lt
  have hd := d.toNat_lt
  rw [Within, toNat_sub_add]
  omega

theorem within_offset (a : UInt64) {n k : Nat} (hk : k < n) (hn : n ≤ 2 ^ 64) :
    Within a n (a + UInt64.ofNat k) := by
  have hcancel : a + UInt64.ofNat k - a = UInt64.ofNat k := by
    rw [UInt64.add_comm, UInt64.add_sub_cancel]
  unfold Within
  rw [hcancel, UInt64.toNat_ofNat']
  omega

theorem load_congr {m m' : Memory} {a : UInt64} (h : ∀ x, Within a 8 x → m' x = m x) :
    load m' a = load m a := by
  unfold load
  apply congrArg UInt64.ofNat
  apply leNat_congr
  intro k hk
  exact h _ (within_offset a hk (by omega))

/-- What was stored is loaded. -/
@[simp] theorem load_store (m : Memory) (a v : UInt64) : load (store m a v) a = v := by
  have hbytes : (leNat 8 fun k => store m a v (a + UInt64.ofNat k)) = leNat 8 (leByte v.toNat) := by
    apply leNat_congr
    intro k hk
    have hcancel : a + UInt64.ofNat k - a = UInt64.ofNat k := by
      rw [UInt64.add_comm, UInt64.add_sub_cancel]
    have hnat : (UInt64.ofNat k).toNat = k := by
      rw [UInt64.toNat_ofNat']
      omega
    unfold store
    rw [if_pos (within_offset a hk (by omega)), hcancel, hnat]
  have hlt : v.toNat < 256 ^ 8 := v.toNat_lt
  unfold load
  rw [hbytes, leNat_leByte, Nat.mod_eq_of_lt hlt, UInt64.ofNat_toNat]

theorem load_store_of_apart {m : Memory} {a b v : UInt64} (h : Apart b 8 a 8) :
    load (store m a v) b = load m b :=
  load_congr fun x hx => store_of_not_within (h x hx)

/-! ## Frames -/

/-- The words from `sp` up are `ws`. -/
def Frame (m : Memory) (sp : UInt64) : List UInt64 → Prop
  | [] => True
  | w :: ws => load m sp = w ∧ Frame m (sp + 8) ws

theorem Frame.congr {m m' : Memory} {sp : UInt64} {ws : List UInt64} (h : Frame m sp ws)
    (hlen : 8 * ws.length ≤ 2 ^ 64) (hsame : ∀ x, Within sp (8 * ws.length) x → m' x = m x) :
    Frame m' sp ws := by
  induction ws generalizing sp with
  | nil => trivial
  | cons w ws ih =>
    rw [List.length_cons] at hlen hsame
    have hfirst : ∀ x, Within sp 8 x → Within sp (8 * (ws.length + 1)) x := by
      intro x hx
      unfold Within at *
      omega
    have hrest : ∀ x, Within (sp + 8) (8 * ws.length) x → Within sp (8 * (ws.length + 1)) x := by
      intro x hx
      unfold Within at *
      rw [toNat_sub_add] at hx
      have hlt := (x - sp).toNat_lt
      have h8 : (8 : UInt64).toNat = 8 := rfl
      omega
    refine ⟨(load_congr fun x hx => hsame x (hfirst x hx)).trans h.1, ?_⟩
    exact ih h.2 (by omega) fun x hx => hsame x (hrest x hx)

/-- A word stored right below a frame extends it. -/
theorem Frame.push {m : Memory} {sp : UInt64} {ws : List UInt64} (h : Frame m sp ws) (v : UInt64)
    (hlen : 8 * (ws.length + 1) ≤ 2 ^ 64) : Frame (store m (sp - 8) v) (sp - 8) (v :: ws) := by
  have hback : sp - 8 + 8 = sp := UInt64.sub_add_cancel sp 8
  refine ⟨load_store m (sp - 8) v, ?_⟩
  rw [hback]
  apply h.congr (by omega)
  intro x hx
  apply store_of_not_within
  unfold Within at *
  rw [← hback, toNat_sub_add] at hx
  have hlt := (x - (sp - 8)).toNat_lt
  have h8 : (8 : UInt64).toNat = 8 := rfl
  omega

/-! ## The processor -/

inductive Reg
  | rax | rbx | rcx | rdx | rsi | rdi | rbp | rsp
  | r8 | r9 | r10 | r11 | r12 | r13 | r14 | r15
  deriving DecidableEq, Repr

/-- Registers and memory. `gsBase` is the active base, `kernelGsBase` the one `swapgs` exchanges it for;
`rip` is where the last `ret` went. -/
structure Cpu where
  regs : Reg → UInt64
  gsBase : UInt64
  kernelGsBase : UInt64
  rip : UInt64
  mem : Memory

/-- The instructions, named as in AT&T syntax, destination last there and here -/
inductive Instr
  | push (src : Reg)
  | pop (dst : Reg)
  /-- `movq %src, %dst` -/
  | mov (src dst : Reg)
  /-- `movq %src, (%base)` -/
  | store (src base : Reg)
  /-- `movq (%base), %dst` -/
  | load (base dst : Reg)
  /-- `movq %src, %gs:disp` -/
  | storeGs (src : Reg) (disp : UInt64)
  /-- `movq %gs:disp, %dst` -/
  | loadGs (disp : UInt64) (dst : Reg)
  | swapgs
  | ret

def Cpu.set (c : Cpu) (r : Reg) (v : UInt64) : Cpu :=
  { c with regs := Function.update c.regs r v }

@[simp] theorem set_regs_self (c : Cpu) (r : Reg) (v : UInt64) : (c.set r v).regs r = v :=
  Function.update_self _ _ _

theorem set_regs_of_ne {c : Cpu} {r x : Reg} (h : x ≠ r) (v : UInt64) :
    (c.set r v).regs x = c.regs x :=
  Function.update_of_ne h _ _

def exec : Instr → Cpu → Cpu
  | .push src, c =>
    { c.set .rsp (c.regs .rsp - 8) with mem := store c.mem (c.regs .rsp - 8) (c.regs src) }
  | .pop dst, c => (c.set .rsp (c.regs .rsp + 8)).set dst (load c.mem (c.regs .rsp))
  | .mov src dst, c => c.set dst (c.regs src)
  | .store src base, c => { c with mem := store c.mem (c.regs base) (c.regs src) }
  | .load base dst, c => c.set dst (load c.mem (c.regs base))
  | .storeGs src disp, c => { c with mem := store c.mem (c.gsBase + disp) (c.regs src) }
  | .loadGs disp dst, c => c.set dst (load c.mem (c.gsBase + disp))
  | .swapgs, c => { c with gsBase := c.kernelGsBase, kernelGsBase := c.gsBase }
  | .ret, c => { c.set .rsp (c.regs .rsp + 8) with rip := load c.mem (c.regs .rsp) }

theorem exec_ret_rsp (c : Cpu) : (exec .ret c).regs .rsp = c.regs .rsp + 8 := by
  simp only [exec, Cpu.set, Function.update_self]

theorem exec_ret_regs {c : Cpu} {r : Reg} (hr : r ≠ .rsp) : (exec .ret c).regs r = c.regs r := by
  simp only [exec, Cpu.set, Function.update_of_ne hr]

def run : List Instr → Cpu → Cpu
  | [], c => c
  | i :: is, c => run is (exec i c)

theorem run_append (is js : List Instr) (c : Cpu) : run (is ++ js) c = run js (run is c) := by
  induction is generalizing c with
  | nil => rfl
  | cons i is ih => exact ih (exec i c)

/-! ## Pushes -/

/-- `8 * n` as an offset -/
def words (n : Nat) : UInt64 := UInt64.ofNat (8 * n)

theorem words_succ (n : Nat) : words (n + 1) = words n + 8 := by
  unfold words
  rw [Nat.mul_succ, UInt64.ofNat_add]
  rfl

theorem Frame.drop {m : Memory} {sp : UInt64} {ws ws' : List UInt64} (h : Frame m sp (ws ++ ws')) :
    Frame m (sp + words ws.length) ws' := by
  induction ws generalizing sp with
  | nil =>
    have hzero : sp + words 0 = sp := UInt64.add_zero _
    rw [List.length_nil, hzero]
    exact h
  | cons w ws ih =>
    rw [List.length_cons, words_succ, UInt64.add_comm (words ws.length), ← UInt64.add_assoc]
    exact ih h.2

/-- The word at its place in a frame -/
theorem Frame.load_eq {m : Memory} {sp : UInt64} {ws : List UInt64} (h : Frame m sp ws) {i : Nat} {w : UInt64}
    (hw : ws[i]? = some w) : load m (sp + words i) = w := by
  induction ws generalizing sp i with
  | nil => simp at hw
  | cons x ws ih =>
    cases i with
    | zero =>
      have hzero : sp + words 0 = sp := UInt64.add_zero _
      rw [hzero]
      exact h.1.trans (by simpa using hw)
    | succ i =>
      rw [words_succ, UInt64.add_comm (words i), ← UInt64.add_assoc]
      exact ih h.2 (by simpa using hw)

/-- What pushing `rs` in order does, over the words `ws` that are on the stack already -/
structure Pushed (rs : List Reg) (ws : List UInt64) (c d : Cpu) : Prop where
  regs : ∀ r, r ≠ .rsp → d.regs r = c.regs r
  rsp : d.regs .rsp = c.regs .rsp - words rs.length
  frame : Frame d.mem (d.regs .rsp) (rs.reverse.map c.regs ++ ws)
  outside : ∀ x, ¬ Within (d.regs .rsp) (8 * rs.length) x → d.mem x = c.mem x
  gsBase : d.gsBase = c.gsBase
  kernelGsBase : d.kernelGsBase = c.kernelGsBase

/-- **Pushes.** The registers are on the stack, the last one pushed at its top, and no other byte of memory
has changed. -/
theorem pushed_run {rs : List Reg} {ws : List UInt64} {c : Cpu} (hrsp : Reg.rsp ∉ rs)
    (hframe : Frame c.mem (c.regs .rsp) ws) (hlen : 8 * (rs.length + ws.length) ≤ 2 ^ 64) :
    Pushed rs ws c (run (rs.map Instr.push) c) := by
  induction rs generalizing c ws with
  | nil =>
    have hzero : c.regs .rsp - words 0 = c.regs .rsp := UInt64.sub_zero _
    exact ⟨fun _ _ => rfl, hzero.symm, hframe, fun _ _ => rfl, rfl, rfl⟩
  | cons r rs ih =>
    rw [List.mem_cons, not_or] at hrsp
    rw [List.length_cons] at hlen
    have hnext : Frame (exec (.push r) c).mem ((exec (.push r) c).regs .rsp) (c.regs r :: ws) := by
      show Frame (store c.mem _ _) ((c.set .rsp _).regs .rsp) _
      rw [set_regs_self]
      exact hframe.push (c.regs r) (by omega)
    have hsp : (exec (.push r) c).regs .rsp = c.regs .rsp - 8 := set_regs_self c .rsp _
    have hkeep : ∀ x, x ≠ .rsp → (exec (.push r) c).regs x = c.regs x := fun x hx =>
      set_regs_of_ne hx _
    have ih := ih hrsp.2 hnext (by
      rw [List.length_cons]
      omega)
    show Pushed (r :: rs) ws c (run (rs.map Instr.push) (exec (.push r) c))
    have hrspEq : (run (rs.map Instr.push) (exec (.push r) c)).regs .rsp =
        c.regs .rsp - words (rs.length + 1) := by
      rw [ih.rsp, hsp, words_succ, UInt64.add_comm, sub_add_eq]
    refine ⟨?_, ?_, ?_, ?_, ih.gsBase, ih.kernelGsBase⟩
    · intro x hx
      rw [ih.regs x hx, hkeep x hx]
    · exact hrspEq
    · have hmap : rs.reverse.map (exec (.push r) c).regs = rs.reverse.map c.regs := by
        apply List.map_congr_left
        intro x hx
        apply hkeep
        rintro rfl
        exact hrsp.2 (List.mem_reverse.mp hx)
      have hframe := ih.frame
      rw [hmap] at hframe
      rw [List.reverse_cons, List.map_append, List.append_assoc]
      exact hframe
    · intro x hx
      rw [List.length_cons] at hx
      -- the pushed word lies above those of `rs`, in the same frame
      have hnot : ¬ Within ((run (rs.map Instr.push) (exec (.push r) c)).regs .rsp) (8 * rs.length) x := by
        intro hin
        apply hx
        unfold Within at *
        omega
      rw [ih.outside x hnot]
      apply store_of_not_within
      intro hin
      apply hx
      have hbase : c.regs .rsp - 8 =
          (run (rs.map Instr.push) (exec (.push r) c)).regs .rsp + words rs.length := by
        rw [ih.rsp, hsp, UInt64.sub_add_cancel]
      unfold Within at *
      rw [hbase, toNat_sub_add] at hin
      have hlt := (x - (run (rs.map Instr.push) (exec (.push r) c)).regs .rsp).toNat_lt
      have hwords : (words rs.length).toNat = 8 * rs.length := by
        unfold words
        rw [UInt64.toNat_ofNat']
        omega
      omega

/-! ## Pops -/

/-- `rs` take the values `ws` in order. -/
def assign : List Reg → List UInt64 → (Reg → UInt64) → Reg → UInt64
  | r :: rs, w :: ws, f => assign rs ws (Function.update f r w)
  | _, _, f => f

theorem assign_congr {rs : List Reg} {ws : List UInt64} {f g : Reg → UInt64} {r : Reg}
    (h : f r = g r) : assign rs ws f r = assign rs ws g r := by
  induction rs generalizing ws f g with
  | nil => exact h
  | cons x rs ih =>
    cases ws with
    | nil => exact h
    | cons w ws =>
      apply ih
      by_cases hx : r = x
      · rw [hx, Function.update_self, Function.update_self]
      · rw [Function.update_of_ne hx, Function.update_of_ne hx, h]

/-- What popping into `rs` in order does, when the words on the stack begin with `ws` -/
structure Popped (rs : List Reg) (ws : List UInt64) (c d : Cpu) : Prop where
  regs : ∀ r, r ≠ .rsp → d.regs r = assign rs ws c.regs r
  rsp : d.regs .rsp = c.regs .rsp + words rs.length
  mem : d.mem = c.mem
  gsBase : d.gsBase = c.gsBase
  kernelGsBase : d.kernelGsBase = c.kernelGsBase

/-- **Pops.** Each register takes the word that is at its place in the frame. -/
theorem popped_run {rs : List Reg} {ws ws' : List UInt64} {c : Cpu} (hrsp : Reg.rsp ∉ rs)
    (hframe : Frame c.mem (c.regs .rsp) (ws ++ ws')) (hlen : ws.length = rs.length) :
    Popped rs ws c (run (rs.map Instr.pop) c) := by
  induction rs generalizing c ws with
  | nil =>
    have hzero : c.regs .rsp + words 0 = c.regs .rsp := UInt64.add_zero _
    exact ⟨fun _ _ => rfl, hzero.symm, rfl, rfl, rfl⟩
  | cons r rs ih =>
    rw [List.mem_cons, not_or] at hrsp
    cases ws with
    | nil => exact absurd hlen (Nat.succ_ne_zero _).symm
    | cons w ws =>
      have hload : load c.mem (c.regs .rsp) = w := hframe.1
      have hsp : (exec (.pop r) c).regs .rsp = c.regs .rsp + 8 := by
        show ((c.set .rsp _).set r _).regs .rsp = c.regs .rsp + 8
        rw [set_regs_of_ne hrsp.1, set_regs_self]
      have hnext : Frame (exec (.pop r) c).mem ((exec (.pop r) c).regs .rsp) (ws ++ ws') := by
        rw [hsp]
        exact hframe.2
      have ih := ih hrsp.2 hnext (Nat.succ.inj hlen)
      show Popped (r :: rs) (w :: ws) c (run (rs.map Instr.pop) (exec (.pop r) c))
      refine ⟨?_, ?_, ih.mem, ih.gsBase, ih.kernelGsBase⟩
      · intro x hx
        rw [ih.regs x hx]
        apply assign_congr
        show ((c.set .rsp _).set r _).regs x = Function.update c.regs r w x
        rw [hload]
        by_cases hxr : x = r
        · rw [hxr, set_regs_self, Function.update_self]
        · rw [set_regs_of_ne hxr, set_regs_of_ne hx, Function.update_of_ne hxr]
      · rw [ih.rsp, hsp, List.length_cons, words_succ, UInt64.add_assoc, UInt64.add_comm 8]

end Amd64
