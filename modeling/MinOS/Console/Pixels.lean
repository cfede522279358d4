/-
# MinOS.Console.Pixels — the console draws a terminal.

`console_putc` keeps no text: it draws a character into the framebuffer, moves the cursor, and scrolls by copying
pixels. The picture is that of a terminal that knows no pixels, a grid of characters with a cursor (`Grid`): `Shows`
relates the two, every character keeps it (`shows_putc`), and so does every sequence of characters.
-/
import MinOS.Console.Terminal
import MinOS.Framebuffer

namespace MinOS.Console

/-! ## Functions of `console.c` -/

/-- `CONSOLE_BG` -/
def consoleBg : UInt32 := 0xFF101722

/-- `CONSOLE_FG`, which is `COLOR_TEXT_WHITE` -/
def consoleFg : UInt32 := 0xFFF8FAFC

/-- The framebuffer and the cursor -/
structure Display where
  fb : Framebuffer
  cursor : Cursor

/-- `console_newline` -/
def consoleNewline (s : Display) : Display where
  fb := if s.cursor.rows ≤ s.cursor.row + 1 then fbScrollUp 16 (u32 (s.cursor.rows * 18)) 1 consoleBg s.fb else s.fb
  cursor := s.cursor.newline

/-- `console_putc` -/
def consolePutc (font : Font) (s : Display) (c : UInt8) : Display :=
  if c = newline then consoleNewline s
  else if c = carriageReturn then s
  else
    let s := if s.cursor.columns ≤ s.cursor.column then consoleNewline s else s
    { fb := fbDrawChar font (u32 (16 + s.cursor.column * 9)) (u32 (16 + s.cursor.row * 18)) c consoleFg consoleBg s.fb
      cursor := { s.cursor with column := s.cursor.column + 1 } }

/-- `console_init`, before the prompt -/
def consoleClear (fb : Framebuffer) : Display := ⟨fbClear consoleBg fb, Cursor.init fb.width fb.height⟩

/-- The cursor moves as in `MinOS.Console.Terminal`. -/
theorem consolePutc_cursor (font : Font) (s : Display) (c : UInt8) :
    (consolePutc font s c).cursor = s.cursor.putc c := by
  unfold consolePutc Cursor.putc
  split
  · rfl
  split
  · rfl
  dsimp only
  split <;> rfl

/-! ## The terminal it is -/

/-- Characters in rows and columns, and a cursor -/
structure Grid where
  columns : Nat
  rows : Nat
  /-- By row and column; `none` if nothing was written there -/
  cells : Nat → Nat → Option UInt8
  column : Nat
  row : Nat

/-- An empty terminal -/
def Grid.blank (columns rows : Nat) : Grid := ⟨columns, rows, fun _ _ => none, 0, 0⟩

/-- The next row, or the last one again after all rows moved up by one -/
def Grid.newline (t : Grid) : Grid :=
  if t.row + 1 < t.rows then { t with column := 0, row := t.row + 1 }
  else { t with column := 0, cells := fun r c => if r + 1 < t.rows then t.cells (r + 1) c else none }

/-- Write a character and move on -/
def Grid.write (t : Grid) (ch : UInt8) : Grid :=
  { t with
    cells := fun r c => if r = t.row ∧ c = t.column then some ch else t.cells r c
    column := t.column + 1 }

/-- What a character does. A full row is left when the next character comes. -/
def Grid.putc (t : Grid) (ch : UInt8) : Grid :=
  if ch = Console.newline then t.newline
  else if ch = carriageReturn then t
  else if t.column < t.columns then t.write ch
  else t.newline.write ch

/-! ## Its picture -/

/-- The colour of a pixel of a cell -/
def cellColor (font : Font) (cell : Option UInt8) (dx dy : Nat) : UInt32 :=
  match cell with
  | some ch => glyphColor font ch consoleFg consoleBg dx dy
  | none => consoleBg

/-- The pixel is in a cell. -/
def Grid.InCell (t : Grid) (x y : Nat) : Prop :=
  (16 ≤ x ∧ (x - 16) / 9 < t.columns ∧ (x - 16) % 9 < 8) ∧ 16 ≤ y ∧ (y - 16) / 18 < t.rows ∧ (y - 16) % 18 < 16

instance (t : Grid) (x y : Nat) : Decidable (t.InCell x y) := inferInstanceAs (Decidable (_ ∧ _))

/-- The colour of a pixel -/
def Grid.color (t : Grid) (font : Font) (x y : Nat) : UInt32 :=
  if t.InCell x y then cellColor font (t.cells ((y - 16) / 18) ((x - 16) / 9)) ((x - 16) % 9) ((y - 16) % 18)
  else consoleBg

/-- The framebuffer shows the terminal. -/
structure Shows (font : Font) (s : Display) (t : Grid) : Prop where
  usable : s.fb.Usable
  cursor : s.cursor = ⟨t.columns, t.rows, t.column, t.row⟩
  width : 16 + t.columns * 9 ≤ s.fb.width
  height : 16 + t.rows * 18 ≤ s.fb.height
  columns : 0 < t.columns
  row : t.row < t.rows
  column : t.column ≤ t.columns
  pixel : ∀ x y, x < s.fb.width → y < s.fb.height →
    s.fb.pixel x y = convertColor s.fb.isBgr (t.color font x y)

section Steps

variable {font : Font} {s : Display} {t : Grid}

/-- A framebuffer with another picture shows another terminal of the same size. -/
theorem Shows.paint (h : Shows font s t) {fb' : Framebuffer} {picture : Nat → Nat → UInt32}
    (hp : Paints s.fb fb' picture) (t' : Grid) (hcolumns : t'.columns = t.columns) (hrows : t'.rows = t.rows)
    (hrow : t'.row < t.rows) (hcolumn : t'.column ≤ t.columns)
    (hpicture : ∀ x y, x < s.fb.width → y < s.fb.height →
      picture x y = convertColor s.fb.isBgr (t'.color font x y)) :
    Shows font ⟨fb', ⟨t'.columns, t'.rows, t'.column, t'.row⟩⟩ t' := by
  refine ⟨hp.usable h.usable, rfl, ?_, ?_, ?_, ?_, ?_, ?_⟩
  · rw [hp.width_eq, hcolumns]
    exact h.width
  · rw [hp.height_eq, hrows]
    exact h.height
  · rw [hcolumns]
    exact h.columns
  · rw [hrows]
    exact hrow
  · rw [hcolumns]
    exact hcolumn
  · intro x y hx hy
    rw [hp.width_eq] at hx
    rw [hp.height_eq] at hy
    rw [hp.pixel x y hx hy, hpicture x y hx hy, hp.isBgr_eq]

/-- The picture of a terminal that was scrolled -/
theorem color_scrolled {x y : Nat} (hrow : ¬ t.row + 1 < t.rows) : t.newline.color font x y =
    if 16 ≤ y ∧ y + 18 < 16 + t.rows * 18 then t.color font x (y + 18) else consoleBg := by
  have hnewline : t.newline = { t with
      column := 0, cells := fun r c => if r + 1 < t.rows then t.cells (r + 1) c else none } := if_neg hrow
  rw [hnewline]
  by_cases hy : 16 ≤ y ∧ y + 18 < 16 + t.rows * 18
  · -- a row that has another one below it
    have hnext : (y + 18 - 16) / 18 = (y - 16) / 18 + 1 := by omega
    have hsame : (y + 18 - 16) % 18 = (y - 16) % 18 := by omega
    have hcell : Grid.InCell { t with
        column := 0, cells := fun r c => if r + 1 < t.rows then t.cells (r + 1) c else none } x y ↔
        t.InCell x (y + 18) := by
      unfold Grid.InCell
      dsimp only
      omega
    rw [if_pos hy, Grid.color, Grid.color, if_congr hcell rfl rfl, hnext, hsame]
    by_cases hin : t.InCell x (y + 18)
    · rw [if_pos hin, if_pos hin]
      dsimp only
      rw [if_pos (by omega)]
    · rw [if_neg hin, if_neg hin]
  · rw [if_neg hy, Grid.color]
    split
    · -- the last row
      rename_i hin
      unfold Grid.InCell at hin
      dsimp only at hin ⊢
      rw [if_neg (by omega)]
      rfl
    · rfl

/-- Beside the rows there is nothing. -/
theorem color_beside {x y : Nat} (hy : ¬ (16 ≤ y ∧ y < 16 + t.rows * 18)) : t.color font x y = consoleBg := by
  rw [Grid.color, if_neg]
  unfold Grid.InCell
  omega

/-- **A new line** -/
theorem shows_newline (h : Shows font s t) : Shows font (consoleNewline s) t.newline := by
  have hrow := h.row
  have hwidth := h.width
  have hheight := h.height
  obtain ⟨-, hsize⟩ := h.usable.sizes_lt (by omega) (by omega)
  rw [consoleNewline, h.cursor]
  by_cases hnext : t.row + 1 < t.rows
  · have hnewline : t.newline = { t with column := 0, row := t.row + 1 } := if_pos hnext
    have hcursor : Cursor.newline ⟨t.columns, t.rows, t.column, t.row⟩ = ⟨t.columns, t.rows, 0, t.row + 1⟩ := by
      rw [Cursor.newline, if_neg (by dsimp only; omega)]
    rw [if_neg (by dsimp only; omega), hcursor, hnewline]
    exact h.paint (paints_self s.fb) { t with column := 0, row := t.row + 1 } rfl rfl hnext (Nat.zero_le _) h.pixel
  · have hcursor : Cursor.newline ⟨t.columns, t.rows, t.column, t.row⟩ =
        ⟨t.newline.columns, t.newline.rows, t.newline.column, t.newline.row⟩ := by
      rw [Cursor.newline, if_pos (by dsimp only; omega), Grid.newline, if_neg hnext]
      dsimp only
      congr
      omega
    have hlines : u32 (t.rows * 18) = t.rows * 18 := Nat.mod_eq_of_lt (by omega)
    have hscroll := paints_scrollUp h.usable (show 16 + t.rows * 18 < 2 ^ 32 by omega)
      (Or.inl hheight) (show 18 ≤ t.rows * 18 by omega) consoleBg
    rw [if_pos (by dsimp only; omega), hcursor]
    dsimp only
    rw [hlines]
    have hkeeps : t.newline.columns = t.columns ∧ t.newline.rows = t.rows ∧ t.newline.row = t.row ∧
        t.newline.column = 0 := by
      rw [Grid.newline, if_neg hnext]
      exact ⟨rfl, rfl, rfl, rfl⟩
    refine h.paint hscroll t.newline hkeeps.1 hkeeps.2.1 (hkeeps.2.2.1 ▸ hrow) (hkeeps.2.2.2 ▸ Nat.zero_le _) ?_
    intro x y hx hy
    rw [color_scrolled hnext]
    by_cases hmoved : 16 ≤ y ∧ y + 18 < 16 + t.rows * 18
    · rw [if_pos hmoved, if_pos hmoved, h.pixel x (y + 18) hx (by omega)]
    rw [if_neg hmoved, if_neg hmoved]
    by_cases hlast : 16 ≤ y ∧ y < 16 + t.rows * 18
    · rw [if_pos hlast]
    · rw [if_neg hlast, h.pixel x y hx hy, color_beside hlast]

/-- The picture of a terminal with one more character -/
theorem color_write {x y : Nat} (ch : UInt8) (hcolumn : t.column < t.columns) (hrow : t.row < t.rows) :
    (t.write ch).color font x y =
      if (16 + t.column * 9 ≤ x ∧ x < 16 + t.column * 9 + 8) ∧ 16 + t.row * 18 ≤ y ∧ y < 16 + t.row * 18 + 16 then
        glyphColor font ch consoleFg consoleBg (x - (16 + t.column * 9)) (y - (16 + t.row * 18))
      else t.color font x y := by
  have hcell : (t.write ch).InCell x y ↔ t.InCell x y := Iff.rfl
  rw [Grid.color, if_congr hcell rfl rfl, Grid.color]
  by_cases hblock : (16 + t.column * 9 ≤ x ∧ x < 16 + t.column * 9 + 8) ∧
      16 + t.row * 18 ≤ y ∧ y < 16 + t.row * 18 + 16
  · have hin : t.InCell x y := by
      unfold Grid.InCell
      omega
    have hx : (x - 16) / 9 = t.column ∧ (x - 16) % 9 = x - (16 + t.column * 9) := by omega
    have hy : (y - 16) / 18 = t.row ∧ (y - 16) % 18 = y - (16 + t.row * 18) := by omega
    rw [if_pos hblock, if_pos hin, hx.1, hx.2, hy.1, hy.2, Grid.write]
    dsimp only
    rw [if_pos ⟨rfl, rfl⟩]
    rfl
  · rw [if_neg hblock]
    by_cases hin : t.InCell x y
    · rw [if_pos hin, if_pos hin, Grid.write]
      dsimp only
      rw [if_neg]
      unfold Grid.InCell at hin
      omega
    · rw [if_neg hin, if_neg hin]

/-- **A character in the row** -/
theorem shows_write (h : Shows font s t) (hcolumn : t.column < t.columns) (ch : UInt8) : Shows font
    { fb := fbDrawChar font (u32 (16 + s.cursor.column * 9)) (u32 (16 + s.cursor.row * 18)) ch consoleFg consoleBg s.fb
      cursor := { s.cursor with column := s.cursor.column + 1 } } (t.write ch) := by
  have hrow := h.row
  have hwidth := h.width
  have hheight := h.height
  obtain ⟨hpitch, hsize⟩ := h.usable.sizes_lt (by omega) (by omega)
  have hle := h.usable.width
  rw [h.cursor]
  dsimp only
  rw [show u32 (16 + t.column * 9) = 16 + t.column * 9 from Nat.mod_eq_of_lt (by omega),
    show u32 (16 + t.row * 18) = 16 + t.row * 18 from Nat.mod_eq_of_lt (by omega)]
  have hdraw := paints_drawChar h.usable (show 16 + t.column * 9 + 8 ≤ 2 ^ 32 by omega)
    (show 16 + t.row * 18 + 16 ≤ 2 ^ 32 by omega) font ch consoleFg (show consoleBg ≠ 0 by decide)
  refine h.paint hdraw (t.write ch) rfl rfl hrow hcolumn ?_
  intro x y hx hy
  rw [color_write ch hcolumn hrow, h.pixel x y hx hy]
  exact (apply_ite (convertColor s.fb.isBgr) _ _ _).symm

/-- **Every character** -/
theorem shows_putc (h : Shows font s t) (ch : UInt8) : Shows font (consolePutc font s ch) (t.putc ch) := by
  unfold consolePutc Grid.putc
  by_cases hnl : ch = newline
  · rw [if_pos hnl, if_pos hnl]
    exact shows_newline h
  rw [if_neg hnl, if_neg hnl]
  by_cases hcr : ch = carriageReturn
  · rw [if_pos hcr, if_pos hcr]
    exact h
  rw [if_neg hcr, if_neg hcr]
  have hfull : s.cursor.columns ≤ s.cursor.column ↔ ¬ t.column < t.columns := by
    rw [h.cursor]
    exact Nat.not_lt.symm
  by_cases hroom : t.column < t.columns
  · rw [if_pos hroom, if_neg fun hle => hfull.mp hle hroom]
    exact shows_write h hroom ch
  · rw [if_neg hroom, if_pos (hfull.mpr hroom)]
    have hnewline := shows_newline h
    have hstart : t.newline.column = 0 := by
      unfold Grid.newline
      split <;> rfl
    exact shows_write hnewline (hstart ▸ hnewline.columns) ch

/-- **Every sequence of characters** -/
theorem shows_puts (text : List UInt8) (h : Shows font s t) :
    Shows font (text.foldl (consolePutc font) s) (text.foldl Grid.putc t) := by
  induction text generalizing s t with
  | nil => exact h
  | cons ch text ih => exact ih (shows_putc h ch)

end Steps

/-! ## From the start -/

theorem shows_clear {fb : Framebuffer} (h : fb.Usable) (hwidth : 25 ≤ fb.width) (hheight : 34 ≤ fb.height)
    (font : Font) : Shows font (consoleClear fb) (Grid.blank ((fb.width - 16) / 9) ((fb.height - 16) / 18)) := by
  have hclear := paints_clear h consoleBg
  have hcolumns : cellCount fb.width 9 = (fb.width - 16) / 9 := by
    rw [cellCount, if_pos (by omega), Nat.max_eq_left (by omega)]
  have hrows : cellCount fb.height 18 = (fb.height - 16) / 18 := by
    rw [cellCount, if_pos (by omega), Nat.max_eq_left (by omega)]
  refine ⟨hclear.usable h, ?_, ?_, ?_, ?_, ?_, Nat.zero_le _, ?_⟩
  · rw [consoleClear, Cursor.init, hcolumns, hrows]
    rfl
  · rw [consoleClear, hclear.width_eq, Grid.blank]
    dsimp only
    omega
  · rw [consoleClear, hclear.height_eq, Grid.blank]
    dsimp only
    omega
  · rw [Grid.blank]
    dsimp only
    omega
  · rw [Grid.blank]
    dsimp only
    omega
  · intro x y hx hy
    rw [consoleClear, hclear.width_eq] at hx
    rw [consoleClear, hclear.height_eq] at hy
    have hblank : (Grid.blank ((fb.width - 16) / 9) ((fb.height - 16) / 18)).color font x y = consoleBg := by
      rw [Grid.color]
      split <;> rfl
    rw [consoleClear, hclear.pixel x y hx hy, hblank, hclear.isBgr_eq]

/-- What is on the screen, cell by cell -/
structure Renders (font : Font) (s : Display) (t : Grid) : Prop where
  /-- A cell is the glyph of its character, or blank. -/
  cell : ∀ r c dx dy, r < t.rows → c < t.columns → dx < 8 → dy < 16 →
    s.fb.pixel (16 + 9 * c + dx) (16 + 18 * r + dy) =
      convertColor s.fb.isBgr (cellColor font (t.cells r c) dx dy)
  /-- Outside the cells there is nothing. -/
  outside : ∀ x y, x < s.fb.width → y < s.fb.height →
    (∀ r c, r < t.rows → c < t.columns → ¬ ((16 + 9 * c ≤ x ∧ x < 16 + 9 * c + 8) ∧
      16 + 18 * r ≤ y ∧ y < 16 + 18 * r + 16)) → s.fb.pixel x y = convertColor s.fb.isBgr consoleBg
  row_lt : s.cursor.row < s.cursor.rows

theorem Shows.renders {font : Font} {s : Display} {t : Grid} (h : Shows font s t) : Renders font s t := by
  have hwidth := h.width
  have hheight := h.height
  refine ⟨?_, ?_, ?_⟩
  · intro r c dx dy hr hc hdx hdy
    have hin : t.InCell (16 + 9 * c + dx) (16 + 18 * r + dy) := by
      unfold Grid.InCell
      omega
    rw [h.pixel _ _ (by omega) (by omega), Grid.color, if_pos hin,
      show (16 + 18 * r + dy - 16) / 18 = r by omega, show (16 + 9 * c + dx - 16) / 9 = c by omega,
      show (16 + 9 * c + dx - 16) % 9 = dx by omega, show (16 + 18 * r + dy - 16) % 18 = dy by omega]
  · intro x y hx hy hout
    rw [h.pixel x y hx hy, Grid.color, if_neg]
    intro hin
    unfold Grid.InCell at hin
    exact hout ((y - 16) / 18) ((x - 16) / 9) hin.2.2.1 hin.1.2.1 (by omega)
  · rw [h.cursor]
    exact h.row

/-- **The console is a terminal.** On every framebuffer with room for a cell, whichever characters are written, the
picture is that of the terminal. -/
theorem console_renders {fb : Framebuffer} (h : fb.Usable) (hwidth : 25 ≤ fb.width) (hheight : 34 ≤ fb.height)
    (font : Font) (text : List UInt8) : Renders font (text.foldl (consolePutc font) (consoleClear fb))
      (text.foldl Grid.putc (Grid.blank ((fb.width - 16) / 9) ((fb.height - 16) / 18))) :=
  (shows_puts text (shows_clear h hwidth hheight font)).renders

/-- The letter `a` on a screen of 640 by 480 pixels, in a font of vertical bars -/
theorem console_renders_a : Renders (fun _ _ => 0x18)
    ([97].foldl (consolePutc fun _ _ => 0x18) (consoleClear ⟨1, 640, 480, 640, 1, fun _ => 0⟩))
    ([97].foldl Grid.putc (Grid.blank 69 25)) :=
  console_renders ⟨by decide, by decide, by decide⟩ (by decide) (by decide) _ _

end MinOS.Console
