/-
# MinOS.Lib.Raster — a picture in a flat memory.

A row of the picture is a stretch of memory, and `pitch` is the distance from one row to the next, at least the
width of the picture. Rectangles are filled and the picture is moved up by loops over rows and, in each row, over
single cells; `pixel_fillRows` and `pixel_moveRows` say what such loops do to the picture.
-/
import Mathlib.Logic.Function.Basic
import Mathlib.Tactic.SplitIfs

namespace Raster

variable {α σ : Type}

/-! ## Loops -/

/-- `for (i = 0; i < n; i++) s = body(i, s);` -/
def loop (body : Nat → σ → σ) : (n : Nat) → σ → σ
  | 0, s => s
  | n + 1, s => body n (loop body n s)

/-- **Loop rule.** What holds before and is kept by every round holds behind the last one. -/
theorem loop_keeps {body : Nat → σ → σ} (P : Nat → σ → Prop) {n : Nat} {s : σ} (hinit : P 0 s)
    (hbody : ∀ i s, i < n → P i s → P (i + 1) (body i s)) : P n (loop body n s) := by
  induction n with
  | zero => exact hinit
  | succ n ih =>
    apply hbody n _ (Nat.lt_succ_self n)
    exact ih fun i s hi => hbody i s (Nat.lt_succ_of_lt hi)

/-- Bodies that agree in every round -/
theorem loop_congr {body body' : Nat → σ → σ} {n : Nat} (h : ∀ i, i < n → body i = body' i) (s : σ) :
    loop body n s = loop body' n s := by
  induction n with
  | zero => rfl
  | succ n ih => rw [loop, loop, ih fun i hi => h i (Nat.lt_succ_of_lt hi), h n (Nat.lt_succ_self n)]

/-! ## Rows -/

/-- `for (i = 0; i < n; i++) mem[first + i] = value;` -/
def fillRow (value : α) (first n : Nat) (mem : Nat → α) : Nat → α :=
  loop (fun i mem => Function.update mem (first + i) value) n mem

/-- `for (i = 0; i < n; i++) mem[dst + i] = mem[src + i];` -/
def copyRow (dst src n : Nat) (mem : Nat → α) : Nat → α :=
  loop (fun i mem => Function.update mem (dst + i) (mem (src + i))) n mem

theorem fillRow_apply (value : α) (first n : Nat) (mem : Nat → α) (a : Nat) :
    fillRow value first n mem a = if first ≤ a ∧ a < first + n then value else mem a := by
  refine loop_keeps (fun i (mem' : Nat → α) => mem' a = if first ≤ a ∧ a < first + i then value else mem a) ?_ ?_
  · rw [if_neg (by omega)]
  · intro i mem' _ hmem
    rw [Function.update_apply, hmem]
    split_ifs <;> first | rfl | omega

/-- Rows that do not overlap -/
theorem copyRow_apply {dst src n : Nat} (hdisjoint : dst + n ≤ src) (mem : Nat → α) (a : Nat) :
    copyRow dst src n mem a = if dst ≤ a ∧ a < dst + n then mem (src + (a - dst)) else mem a := by
  have hall : ∀ a, copyRow dst src n mem a =
      if dst ≤ a ∧ a < dst + n then mem (src + (a - dst)) else mem a := by
    refine loop_keeps (fun i (mem' : Nat → α) =>
      ∀ a, mem' a = if dst ≤ a ∧ a < dst + i then mem (src + (a - dst)) else mem a) ?_ ?_
    · intro a
      rw [if_neg (by omega)]
    · intro i mem' hi hmem a
      rw [Function.update_apply, hmem, hmem, if_neg (by omega : ¬ (dst ≤ src + i ∧ src + i < dst + i))]
      by_cases ha : a = dst + i
      · rw [if_pos ha, if_pos (by omega), ha, Nat.add_sub_cancel_left]
      · rw [if_neg ha]
        split_ifs <;> first | rfl | omega
  exact hall a

/-! ## Pictures -/

/-- Where a pixel is -/
def index (pitch x y : Nat) : Nat := y * pitch + x

section Pictures

variable {pitch : Nat}

theorem index_le_iff {x y y' : Nat} (hx : x < pitch) {first : Nat} (hfirst : first ≤ pitch) :
    index pitch first y' ≤ index pitch x y ↔ y' < y ∨ y' = y ∧ first ≤ x := by
  unfold index
  rcases Nat.lt_trichotomy y' y with hlt | rfl | hgt
  · have := Nat.mul_le_mul_right pitch (Nat.succ_le_of_lt hlt)
    rw [Nat.succ_mul] at this
    refine ⟨fun _ => Or.inl hlt, fun _ => by omega⟩
  · omega
  · have := Nat.mul_le_mul_right pitch (Nat.succ_le_of_lt hgt)
    rw [Nat.succ_mul] at this
    refine ⟨fun _ => by omega, fun h => by omega⟩

/-- A cell of a stretch of one row -/
theorem mem_row_iff {x y x' y' n : Nat} (hx : x < pitch) (hn : x' + n ≤ pitch) :
    index pitch x' y' ≤ index pitch x y ∧ index pitch x y < index pitch x' y' + n ↔ y = y' ∧ x' ≤ x ∧ x < x' + n := by
  have hend : index pitch x' y' + n = index pitch (x' + n) y' := by
    unfold index
    omega
  rw [hend, ← Nat.not_le, index_le_iff hx (by omega), index_le_iff hx hn]
  omega

/-- Different pixels are in different places. -/
theorem index_inj {x y x' y' : Nat} (hx : x < pitch) (hx' : x' < pitch) :
    index pitch x y = index pitch x' y' ↔ x = x' ∧ y = y' := by
  have hmem : index pitch x' y' ≤ index pitch x y ∧ index pitch x y < index pitch x' y' + 1 ↔
      y = y' ∧ x' ≤ x ∧ x < x' + 1 := mem_row_iff hx hx'
  omega

/-- A rectangle, filled row by row -/
def fillRows (value : α) (pitch x y w h : Nat) (mem : Nat → α) : Nat → α :=
  loop (fun i mem => fillRow value (index pitch x (y + i)) w mem) h mem

/-- The rows below, moved up row by row -/
def moveRows (pitch y distance w h : Nat) (mem : Nat → α) : Nat → α :=
  loop (fun i mem => copyRow (index pitch 0 (y + i)) (index pitch 0 (y + i + distance)) w mem) h mem

/-- **Filling** -/
theorem pixel_fillRows (value : α) {x y w h : Nat} (hw : x + w ≤ pitch) (mem : Nat → α) {a b : Nat} (ha : a < pitch) :
    fillRows value pitch x y w h mem (index pitch a b) =
      if (x ≤ a ∧ a < x + w) ∧ y ≤ b ∧ b < y + h then value else mem (index pitch a b) := by
  refine loop_keeps (fun i (mem' : Nat → α) => mem' (index pitch a b) =
    if (x ≤ a ∧ a < x + w) ∧ y ≤ b ∧ b < y + i then value else mem (index pitch a b)) ?_ ?_
  · rw [if_neg (by omega)]
  · intro i mem' _ hmem
    rw [fillRow_apply, hmem]
    simp only [mem_row_iff ha hw]
    split_ifs <;> first | rfl | omega

/-- **Moving up**: a row is read before it is written. -/
theorem pixel_moveRows {y distance w h : Nat} (hw : w ≤ pitch) (hdistance : 0 < distance) (mem : Nat → α) {a b : Nat}
    (ha : a < pitch) : moveRows pitch y distance w h mem (index pitch a b) =
      if a < w ∧ y ≤ b ∧ b < y + h then mem (index pitch a (b + distance)) else mem (index pitch a b) := by
  have hall : ∀ b, moveRows pitch y distance w h mem (index pitch a b) =
      if a < w ∧ y ≤ b ∧ b < y + h then mem (index pitch a (b + distance)) else mem (index pitch a b) := by
    refine loop_keeps (fun i (mem' : Nat → α) => ∀ b, mem' (index pitch a b) =
      if a < w ∧ y ≤ b ∧ b < y + i then mem (index pitch a (b + distance)) else mem (index pitch a b)) ?_ ?_
    · intro b
      rw [if_neg (by omega)]
    · intro i mem' _ hmem b
      have hdisjoint : index pitch 0 (y + i) + w ≤ index pitch 0 (y + i + distance) := by
        have := Nat.mul_le_mul_right pitch (show y + i + 1 ≤ y + i + distance by omega)
        rw [Nat.succ_mul] at this
        unfold index
        omega
      rw [copyRow_apply hdisjoint]
      simp only [mem_row_iff ha (show 0 + w ≤ pitch by omega)]
      by_cases hb : b = y + i ∧ a < w
      · have hsource : index pitch 0 (y + i + distance) + (index pitch a b - index pitch 0 (y + i)) =
            index pitch a (b + distance) := by
          rw [hb.1]
          unfold index
          omega
        rw [if_pos (by omega), if_pos (by omega), hsource, hmem, if_neg (by omega)]
      · rw [if_neg (by omega), hmem]
        split_ifs <;> first | rfl | omega
  exact hall b

/-- Every cell is somewhere in some row. -/
theorem exists_index (hpitch : 0 < pitch) (cell : Nat) : ∃ a b, a < pitch ∧ cell = index pitch a b :=
  ⟨cell % pitch, cell / pitch, Nat.mod_lt _ hpitch, by rw [index, Nat.div_add_mod']⟩

end Pictures

end Raster
