/-
# MinOS.Console.Terminal — the characters a command prints, on the screen.

`console_putc` writes a character into the cell of the cursor and moves on. It wraps late: a full row is left when
the next character comes, not when the last one was written.
-/
import MinOS.Console.Shell

namespace MinOS.Console

/-! ## The cursor -/

/-- `columns`, `rows`, `cursor_column`, `cursor_row` -/
structure Cursor where
  columns : Nat
  rows : Nat
  column : Nat
  row : Nat
  deriving DecidableEq, Repr

/-- `'\r'` -/
def carriageReturn : UInt8 := 13

/-- `console_newline` -/
def Cursor.newline (k : Cursor) : Cursor :=
  { k with column := 0, row := if k.rows ≤ k.row + 1 then k.rows - 1 else k.row + 1 }

/-- `console_putc` -/
def Cursor.putc (k : Cursor) (c : UInt8) : Cursor :=
  if c = Console.newline then k.newline
  else if c = carriageReturn then k
  else
    let k := if k.columns ≤ k.column then k.newline else k
    { k with column := k.column + 1 }

/-- `console_puts` -/
def Cursor.puts (k : Cursor) (s : List UInt8) : Cursor := s.foldl Cursor.putc k

/-- What an effect does to the cursor -/
def Cursor.effect (k : Cursor) : Effect → Cursor
  | .putc c => k.putc c
  | .clear => { k with column := 0, row := 0 }
  | _ => k

/-- The rows and columns `console_init` computes for a framebuffer of this width and height -/
def cellCount (pixels cell : Nat) : Nat := if 16 < pixels then max ((pixels - 16) / cell) 1 else 1

/-- `console_init`, before the prompt -/
def Cursor.init (width height : Nat) : Cursor := ⟨cellCount width 9, cellCount height 18, 0, 0⟩

@[simp] theorem Cursor.putc_columns (k : Cursor) (c : UInt8) : (k.putc c).columns = k.columns := by
  unfold Cursor.putc
  split
  · rfl
  split
  · rfl
  dsimp only
  split <;> rfl

@[simp] theorem Cursor.puts_columns (k : Cursor) (s : List UInt8) : (k.puts s).columns = k.columns := by
  induction s generalizing k with
  | nil => rfl
  | cons c s ih => exact (ih (k.putc c)).trans (k.putc_columns c)

@[simp] theorem Cursor.effects_columns (k : Cursor) (effects : List Effect) :
    (effects.foldl Cursor.effect k).columns = k.columns := by
  induction effects generalizing k with
  | nil => rfl
  | cons e effects ih =>
    rw [List.foldl_cons, ih]
    cases e with
    | putc c => exact k.putc_columns c
    | clear | normalize | call | halt => rfl

/-! ### Where it stays -/

/-- There is a cell, and the cursor is in a row of the screen. -/
structure Cursor.InRows (k : Cursor) : Prop where
  columns : 0 < k.columns
  row : k.row < k.rows

section Moves

variable {k : Cursor}

theorem Cursor.InRows.newline (h : k.InRows) : k.newline.InRows := by
  refine ⟨h.columns, ?_⟩
  have := h.row
  unfold Cursor.newline
  dsimp only
  split <;> omega

theorem Cursor.InRows.putc (h : k.InRows) (c : UInt8) : (k.putc c).InRows := by
  unfold Cursor.putc
  split
  · exact h.newline
  split
  · exact h
  dsimp only
  split
  · exact ⟨h.newline.columns, h.newline.row⟩
  · exact ⟨h.columns, h.row⟩

theorem Cursor.InRows.puts (h : k.InRows) (s : List UInt8) : (k.puts s).InRows := by
  induction s generalizing k with
  | nil => exact h
  | cons c s ih => exact ih (h.putc c)

theorem Cursor.InRows.effect (h : k.InRows) (e : Effect) : (k.effect e).InRows := by
  cases e with
  | putc c => exact h.putc c
  | clear => exact ⟨h.columns, Nat.lt_of_le_of_lt (Nat.zero_le _) h.row⟩
  | normalize | call | halt => exact h

theorem Cursor.InRows.effects (h : k.InRows) (effects : List Effect) : (effects.foldl Cursor.effect k).InRows := by
  induction effects generalizing k with
  | nil => exact h
  | cons e effects ih => exact ih (h.effect e)

end Moves

theorem inRows_init (width height : Nat) : (Cursor.init width height).InRows := by
  have hpos : ∀ pixels cell, 0 < cellCount pixels cell := by
    intro pixels cell
    unfold cellCount
    split
    · exact Nat.lt_of_lt_of_le Nat.one_pos (Nat.le_max_right _ _)
    · exact Nat.one_pos
  exact ⟨hpos width 9, hpos height 18⟩

end MinOS.Console
