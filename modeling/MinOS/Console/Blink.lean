/-
# MinOS.Console.Blink — the cursor and the text under it.

The cursor blinks by painting its cell, and hides by painting it in the colour of the background. Nothing draws the
character under it again before the next key that redraws the line. In every run all cells of the command line but
that of the cursor show the line (`Drawn`), whichever keys and ticks come. While the cursor is hidden its own cell
is blank. So the line is complete as long as the cursor stands behind its end or on a character without a pixel,
and in no other place (`blink_shows_line_iff`).
-/
import MinOS.Console.Drawing
import MinOS.Console.Screen

namespace MinOS.Console

open MinOS.Vfs MinOS.Ata MinOS.Input Machine LineBuffer

/-! ## What the row shows -/

/-- Every cell of the row that is on the screen and right of the prompt shows the character of the line in its
place, or nothing behind the end. -/
def RowShows (font : Font) (s : Screen) : Prop :=
  ∀ i dx dy, consolePromptColumns s.console.shell.cwd + i < s.console.cursor.columns → dx < 8 → dy < 16 →
    s.fb.pixel (16 + (consolePromptColumns s.console.shell.cwd + i) * 9 + dx)
      (16 + s.console.cursor.row * 18 + dy) = convertColor s.fb.isBgr (cellColor font s.console.line[i]? dx dy)

/-- The glyph of the character has a pixel. -/
def Inked (font : Font) (ch : UInt8) : Prop := ∃ dx dy, dx < 8 ∧ dy < 16 ∧ glyphBit font (shownChar ch) dx dy

/-- The cursor is on the screen, on a character of the line that has a pixel. -/
def OnInk (font : Font) (c : ConsoleState) : Prop :=
  consolePromptColumns c.shell.cwd + c.commandCursor < c.cursor.columns ∧
    ∃ ch, c.line[c.commandCursor]? = some ch ∧ Inked font ch

/-- The colour of a pixel of the line, counted from the upper left of its first cell -/
def lineColor (font : Font) (chars : List UInt8) (dx dy : Nat) : UInt32 :=
  if dx % 9 < 8 then cellColor font chars[dx / 9]? (dx % 9) dy else consoleBg

@[simp] theorem lineColor_nil (font : Font) (dx dy : Nat) : lineColor font [] dx dy = consoleBg := by
  simp [lineColor, cellColor]

theorem lineColor_cell (font : Font) (chars : List UInt8) (i : Nat) {dx : Nat} (hdx : dx < 8) (dy : Nat) :
    lineColor font chars (i * 9 + dx) dy = cellColor font chars[i]? dx dy := by
  rw [lineColor, show (i * 9 + dx) % 9 = dx by omega, show (i * 9 + dx) / 9 = i by omega, if_pos hdx]

/-- The pixel is in the row of the cursor, right of the prompt. -/
def InLine (c : ConsoleState) (x y : Nat) : Prop :=
  16 + consolePromptColumns c.shell.cwd * 9 ≤ x ∧ 16 + c.cursor.row * 18 ≤ y ∧ y < 16 + c.cursor.row * 18 + 16

/-- The column of pixels runs through the cursor. -/
def UnderCursor (c : ConsoleState) (x : Nat) : Prop :=
  16 + c.cursor.column * 9 ≤ x ∧ x < 16 + c.cursor.column * 9 + 8

/-- The line is drawn, except perhaps where the cursor is; where it is there is nothing while it is hidden. -/
structure Drawn (font : Font) (s : Screen) : Prop where
  sized : Sized s.fb s.console.cursor
  below : BlankBelow s.fb s.console.cursor.row
  line : ∀ x y, x < s.fb.width → y < s.fb.height → InLine s.console x y → ¬ UnderCursor s.console x →
    s.fb.pixel x y = convertColor s.fb.isBgr (lineColor font s.console.line
      (x - (16 + consolePromptColumns s.console.shell.cwd * 9)) (y - (16 + s.console.cursor.row * 18)))
  hidden : s.console.cursorVisible = false → ∀ x y, x < s.fb.width → y < s.fb.height → InLine s.console x y →
    UnderCursor s.console x → IsBlank s.fb x y

/-- Text and background can be told apart. -/
theorem convertColor_fg_ne (isBgr : UInt32) : convertColor isBgr consoleFg ≠ convertColor isBgr consoleBg := by
  unfold convertColor
  split <;> decide

/-- **A hidden cursor** hides the character it is on. -/
theorem Drawn.rowShows_iff {font : Font} {s : Screen} (h : Drawn font s)
    (hcolumn : s.console.cursor.column = consolePromptColumns s.console.shell.cwd + s.console.commandCursor)
    (hhidden : s.console.cursorVisible = false) : RowShows font s ↔ ¬ OnInk font s.console := by
  have hfit := h.sized.fitting
  have hcolumns := hfit.columns_le
  have hrow := hfit.row_le
  constructor
  · rintro hshows ⟨hon, ch, hch, dx, dy, hdx, hdy, hbit⟩
    have hcell := hshows s.console.commandCursor dx dy hon hdx hdy
    have hblank := h.hidden hhidden (16 + (consolePromptColumns s.console.shell.cwd + s.console.commandCursor) * 9 + dx)
      (16 + s.console.cursor.row * 18 + dy) (by omega) (by omega) ⟨by omega, by omega, by omega⟩
      ⟨by omega, by omega⟩
    rw [hch, cellColor, glyphColor, if_pos hbit] at hcell
    exact convertColor_fg_ne _ (hcell.symm.trans hblank)
  · intro hink i dx dy hi hdx hdy
    have hin : InLine s.console (16 + (consolePromptColumns s.console.shell.cwd + i) * 9 + dx)
        (16 + s.console.cursor.row * 18 + dy) := ⟨by omega, by omega, by omega⟩
    by_cases hcursor : i = s.console.commandCursor
    · -- the cell of the cursor
      rw [h.hidden hhidden _ _ (by omega) (by omega) hin ⟨by omega, by omega⟩]
      cases hch : s.console.line[i]? with
      | none => rfl
      | some ch =>
        have hbit : ¬ glyphBit font (shownChar ch) dx dy := by
          intro hbit
          exact hink ⟨hcursor ▸ hi, ch, hcursor ▸ hch, dx, dy, hdx, hdy, hbit⟩
        rw [cellColor, glyphColor, if_neg hbit]
    · have hx : 16 + (consolePromptColumns s.console.shell.cwd + i) * 9 + dx -
          (16 + consolePromptColumns s.console.shell.cwd * 9) = i * 9 + dx := by omega
      have hout : ¬ UnderCursor s.console (16 + (consolePromptColumns s.console.shell.cwd + i) * 9 + dx) := by
        unfold UnderCursor
        omega
      rw [h.line _ _ (by omega) (by omega) hin hout, hx, Nat.add_sub_cancel_left, lineColor_cell font _ i hdx]

/-! ## Single steps -/

/-- The console has the line of an editor, of printable characters, and a cursor behind the prompt and the text before
it. Nothing is said about the filesystem. -/
structure Steady (c : ConsoleState) (ed : Editor) : Prop where
  represents : Represents c ed
  printable : ed.IsPrintable
  cwd : c.shell.cwd.length ≤ vfsPathMax
  column : c.cursor.column = consolePromptColumns c.shell.cwd + c.commandCursor

/-- The prompt and the line are short. -/
theorem Steady.columns_lt {c : ConsoleState} {ed : Editor} (h : Steady c ed) :
    consolePromptColumns c.shell.cwd + ed.line.length < 2 ^ 16 ∧ c.cursor.column < 2 ^ 16 := by
  have hmax : 8 + vfsPathMax + commandMax < 2 ^ 16 := by decide
  have hcwd := h.cwd
  have hline := h.represents.command.length_le
  have hcursor := h.represents.cursor
  have hcolumn := h.column
  have hsplit : ed.line.length = ed.before.length + ed.after.length := List.length_append
  unfold consolePromptColumns at hcolumn ⊢
  omega

/-- A blank row behind a prompt -/
theorem drawn_of_isClear {s : Screen} (font : Font) (h : IsClear ⟨s.fb, s.console.cursor⟩)
    (hcolumn : s.console.cursor.column = consolePromptColumns s.console.shell.cwd) (hline : s.console.line = []) :
    Drawn font s := by
  have hblank : ∀ x y, x < s.fb.width → y < s.fb.height → InLine s.console x y → IsBlank s.fb x y := by
    intro x y hx hy hin
    obtain ⟨hleft, htop, hbottom⟩ := hin
    have hline : y < 16 + s.console.cursor.row * 18 + 18 := by omega
    rw [← hcolumn] at hleft
    exact h.right x y hx hy htop hline hleft
  refine ⟨h.sized, h.below, ?_, fun _ x y hx hy hin _ => hblank x y hx hy hin⟩
  intro x y hx hy hin _
  rw [hline, lineColor_nil]
  exact hblank x y hx hy hin

section Cursor

variable {font : Font} {c : ConsoleState} {fb : Framebuffer}

theorem paints_consoleCursor (h : Sized fb c.cursor) (hcolumn : c.cursor.column < 2 ^ 16) :
    Paints fb (consoleCursor c fb) fun a b =>
      if (16 + c.cursor.column * 9 ≤ a ∧ a < 16 + c.cursor.column * 9 + 8) ∧ 16 + c.cursor.row * 18 ≤ b ∧
        b < 16 + c.cursor.row * 18 + 16 then
        convertColor fb.isBgr (if c.cursorVisible then consoleCursorColor else consoleBg)
      else fb.pixel a b := by
  have hrow := h.fitting.row_le
  have hheight := h.fitting.height_lt
  rw [consoleCursor, h.fitting.u32_top,
    show u32 (16 + c.cursor.column * 9) = 16 + c.cursor.column * 9 from Nat.mod_eq_of_lt (by omega)]
  have hfill := fun argb => paints_fillRect h.usable (show 16 + c.cursor.column * 9 + 8 < 2 ^ 32 by omega)
    (show 16 + c.cursor.row * 18 + 16 < 2 ^ 32 by omega) argb
  split
  · exact hfill consoleCursorColor
  · exact hfill consoleBg

/-- **Painting the cursor** touches no other cell. -/
theorem drawn_cursor (h : Drawn font ⟨c, fb⟩) (hcolumn : c.cursor.column < 2 ^ 16)
    (cursorVisible : Bool) (cursorTick : UInt64) : Drawn font
      ⟨{ c with cursorVisible, cursorTick }, consoleCursor { c with cursorVisible, cursorTick } fb⟩ := by
  have hpaint := paints_consoleCursor (c := { c with cursorVisible, cursorTick }) h.sized hcolumn
  dsimp only at hpaint
  refine ⟨h.sized.paint hpaint rfl rfl h.sized.row, ?_, ?_, ?_⟩
  · exact h.below.paint hpaint fun x y hy => if_neg (by dsimp only at hy; omega)
  · intro x y hx hy hin hout
    dsimp only at hx hy ⊢
    rw [hpaint.width_eq] at hx
    rw [hpaint.height_eq] at hy
    rw [hpaint.pixel x y hx hy, if_neg fun hcell => hout hcell.1, hpaint.isBgr_eq]
    exact h.line x y hx hy hin hout
  · intro hhidden x y hx hy hin hcell
    refine isBlank_paint hpaint hx hy ?_
    rw [if_pos ⟨hcell, hin.2⟩, show cursorVisible = false from hhidden]
    rfl

end Cursor

section Line

variable {font : Font} {c : ConsoleState} {fb : Framebuffer} {ed : Editor} (hsteady : Steady c ed)
  (hsized : Sized fb c.cursor)
include hsteady hsized

/-- First the rest of the row is cleared, and then come the characters. -/
theorem exists_drawCommand (font : Font) : ∃ fb', drawCommand font c fb = .ok fb' ∧ Paints fb fb' fun a b =>
    if 16 + consolePromptColumns c.shell.cwd * 9 ≤ a ∧ 16 + c.cursor.row * 18 ≤ b ∧
      b < 16 + c.cursor.row * 18 + 16 then
      convertColor fb.isBgr (lineColor font ed.line (a - (16 + consolePromptColumns c.shell.cwd * 9))
        (b - (16 + c.cursor.row * 18)))
    else fb.pixel a b := by
  obtain ⟨hlength, -⟩ := hsteady.columns_lt
  have hfit := hsized.fitting
  have hrow := hfit.row_le
  have hwidth := hfit.width_lt
  have hheight := hfit.height_lt
  have hnewline : 10 ∉ ed.line := fun hmem => absurd (hsteady.printable.line 10 hmem).1 (by decide)
  rw [drawCommand, hsteady.represents.command.cString, hfit.u32_top,
    show u32 (16 + consolePromptColumns c.shell.cwd * 9) = 16 + consolePromptColumns c.shell.cwd * 9 from
      Nat.mod_eq_of_lt (by omega), ok_bind]
  generalize hleft : 16 + consolePromptColumns c.shell.cwd * 9 = left
  obtain ⟨rest, hrest, hrestlt, hrestle⟩ : ∃ rest, (if left < fb.width then fb.width - left else 0) = rest ∧
      left + rest < 2 ^ 32 ∧ fb.width ≤ left + rest := by
    refine ⟨_, rfl, ?_, ?_⟩ <;> split <;> omega
  have hfill := paints_fillRect hsized.usable hrestlt
    (show 16 + c.cursor.row * 18 + 16 < 2 ^ 32 by omega) consoleBg
  have hstring := paints_drawString font left consoleFg (show consoleBg ≠ 0 by decide)
    (show 16 + c.cursor.row * 18 + 16 ≤ 2 ^ 32 by omega) ed.line hnewline (hfill.usable hsized.usable)
    (show left + 9 * ed.line.length < 2 ^ 32 by omega)
  rw [hfill.isBgr_eq] at hstring
  rw [hrest]
  refine ⟨_, rfl, hfill.trans hstring fun a b ha hb hpixel => ?_⟩
  rw [hpixel]
  by_cases hin : left ≤ a ∧ 16 + c.cursor.row * 18 ≤ b ∧ b < 16 + c.cursor.row * 18 + 16
  · rw [if_pos hin, if_pos (show (left ≤ a ∧ a < left + rest) ∧ _ from ⟨⟨hin.1, by omega⟩, hin.2⟩), lineColor]
    by_cases hgap : (a - left) % 9 < 8
    · rw [if_pos ⟨⟨hin.1, hgap⟩, hin.2⟩, if_pos hgap]
      cases ed.line[(a - left) / 9]? with
      | none => rfl
      | some ch => rfl
    · rw [if_neg fun hall => hgap hall.1.2, if_neg hgap]
  · rw [if_neg hin, if_neg fun hall => hin ⟨hall.1.1, hall.2⟩, if_neg fun hall => hin ⟨hall.1.1, hall.2⟩]

/-- **Redrawing the line** draws all of it. -/
theorem exists_drawn (hbelow : BlankBelow fb c.cursor.row) (hvisible : c.cursorVisible = true) :
    ∃ fb', drawCommand font c fb = .ok fb' ∧ Drawn font ⟨c, fb'⟩ := by
  obtain ⟨fb', hfb', hpaint⟩ := exists_drawCommand hsteady hsized font
  refine ⟨fb', hfb', hsized.paint hpaint rfl rfl hsized.row, ?_, ?_, ?_⟩
  · exact hbelow.paint hpaint fun x y hy => if_neg (by omega)
  · intro x y hx hy hin _
    dsimp only at hx hy hin ⊢
    rw [hpaint.width_eq] at hx
    rw [hpaint.height_eq] at hy
    rw [hpaint.pixel x y hx hy, if_pos ⟨hin.1, hin.2⟩, hpaint.isBgr_eq, hsteady.represents.line_eq]
  · intro hhidden
    exact absurd (hvisible.symm.trans hhidden) (by decide)

end Line

/-! ## Events -/

/-- A key that does not redraw the line does not change it. -/
theorem editLine_of_not_redraws {event : Event} {c : ConsoleState} (h : ¬ Redraws event c) :
    editLine event c = .ok c := by
  rw [Redraws] at h
  rw [editLine]
  by_cases hkey : event.key = .backspace
  · rw [if_pos hkey] at h ⊢
    rw [backspace, if_neg h]
  rw [if_neg hkey] at h ⊢
  by_cases hkey : event.key = .tab
  · rw [if_pos hkey] at h
    exact absurd trivial h
  rw [if_neg hkey] at h ⊢
  by_cases hkey : event.key = .left
  · rw [if_pos hkey] at h ⊢
    rw [if_neg h]
  rw [if_neg hkey] at h ⊢
  by_cases hkey : event.key = .right
  · rw [if_pos hkey] at h ⊢
    rw [if_neg h]
  rw [if_neg hkey] at h ⊢
  by_cases hkey : event.key = .up
  · rw [if_pos hkey] at h ⊢
    rw [recallUp, if_neg h]
  rw [if_neg hkey] at h ⊢
  by_cases hkey : event.key = .down
  · rw [if_pos hkey] at h ⊢
    rw [recallDown, if_neg h]
  rw [if_neg hkey] at h ⊢
  by_cases hkey : event.modifiers &&& modCtrl ≠ 0 ∧ event.key = .a
  · rw [if_pos hkey] at h
    exact absurd trivial h
  rw [if_neg hkey] at h ⊢
  by_cases hkey : event.modifiers &&& modCtrl ≠ 0 ∧ event.key = .e
  · rw [if_pos hkey] at h
    exact absurd trivial h
  rw [if_neg hkey] at h ⊢
  by_cases hkey : event.modifiers &&& modCtrl ≠ 0 ∧ event.key = .u
  · rw [if_pos hkey] at h
    exact absurd trivial h
  rw [if_neg hkey] at h ⊢
  by_cases hkey : event.modifiers &&& modCtrl ≠ 0 ∧ event.key = .k
  · rw [if_pos hkey] at h
    exact absurd trivial h
  rw [if_neg hkey] at h ⊢
  rw [if_neg h]

section Events

variable {font : Font} {s : Screen} {ed : Editor} (hdrawn : Drawn font s) (hsteady : Steady s.console ed) {m : Moment}

include hsteady in
/-- A key changes the line as it does in the editor, and the column of the cursor. -/
theorem exists_steady_key (hm : ¬ m.Enters) : ∃ c', consoleEvent m s.console = .ok ([], c') ∧
    Steady c' (ed.key (consolePromptColumns s.console.shell.cwd) m.event) ∧ c'.shell = s.console.shell ∧
    c'.cursor = { s.console.cursor with column := c'.cursor.column } ∧
    (m.event.pressed ≠ 0 → c'.cursorVisible = true ∧ c'.cursorTick = m.now) := by
  rw [consoleEvent]
  by_cases hpressed : m.event.pressed = 0
  · rw [if_pos hpressed, Editor.key, if_pos hpressed]
    exact ⟨s.console, rfl, hsteady, rfl, rfl, fun hne => absurd hpressed hne⟩
  obtain ⟨c', hc', hrep, hshell, hcursor⟩ := edits_editLine hsteady.represents hsteady.column hpressed
  rw [if_neg hpressed, if_neg fun henter => hm ⟨hpressed, henter⟩, hc', ok_bind]
  refine ⟨_, rfl, ⟨hrep.withScreen _ _ _, hsteady.printable.key _ _, ?_, ?_⟩, hshell, ?_, fun _ => ⟨rfl, rfl⟩⟩
  · rw [hshell]
    exact hsteady.cwd
  · rw [hcursor, hshell, hrep.cursor]
  · rw [hcursor]

include hdrawn hsteady in
/-- **Every key** -/
theorem exists_screenEvent_key (hm : ¬ m.Enters) : ∃ s', screenEvent font m s = .ok ([], s') ∧
    consoleEvent m s.console = .ok ([], s'.console) ∧ Drawn font s' := by
  obtain ⟨c', hc', hsteady', -, hcursor, hvisible⟩ := exists_steady_key hsteady hm
  rw [screenEvent, hc', ok_bind]
  dsimp only
  by_cases hpressed : m.event.pressed = 0
  · rw [consoleEvent, if_pos hpressed] at hc'
    obtain ⟨-, rfl⟩ := Prod.mk.inj (Except.ok.inj hc')
    rw [if_pos hpressed]
    exact ⟨_, rfl, rfl, hdrawn⟩
  have hkey : ¬ m.event.key = .enter := fun henter => hm ⟨hpressed, henter⟩
  rw [if_neg hpressed, if_neg hkey]
  by_cases hredraw : Redraws m.event s.console
  · have hsized : Sized s.fb c'.cursor := by
      rw [hcursor]
      exact hdrawn.sized.paint (paints_self s.fb) rfl rfl hdrawn.sized.row
    have hbelow : BlankBelow s.fb c'.cursor.row := by
      rw [hcursor]
      exact hdrawn.below
    obtain ⟨fb', hfb', hdrawn'⟩ := exists_drawn hsteady' hsized hbelow (hvisible hpressed).1
    rw [if_pos hredraw, hfb', ok_bind]
    exact ⟨_, rfl, rfl, hdrawn'⟩
  · rw [consoleEvent, if_neg hpressed, if_neg hkey, editLine_of_not_redraws hredraw, ok_bind] at hc'
    obtain ⟨-, rfl⟩ := Prod.mk.inj (Except.ok.inj hc')
    rw [if_neg hredraw]
    refine ⟨_, rfl, rfl, hdrawn.sized, hdrawn.below, hdrawn.line, ?_⟩
    intro hhidden
    cases hhidden

include hdrawn hsteady in
/-- **Enter**, if the command returns -/
theorem drawn_enter (hm : m.Enters) {effects : List Effect} {s' : Screen}
    (hevent : screenEvent font m s = .ok (effects, s')) : Steady s'.console ed.enter ∧
      s'.console.cursor.columns = s.console.cursor.columns ∧ Drawn font s' := by
  obtain ⟨⟨effects', c'⟩, hc', hfb⟩ := bind_eq_ok_iff.mp hevent
  dsimp only at hfb
  rw [if_neg hm.1, if_pos hm.2] at hfb
  obtain ⟨rfl, rfl⟩ := Prod.mk.inj (Except.ok.inj hfb)
  rw [consoleEvent, if_neg hm.1, if_pos hm.2] at hc'
  obtain ⟨⟨effects₁, c₁⟩, hc₁, hc'⟩ := bind_eq_ok_iff.mp hc'
  obtain ⟨rfl, rfl⟩ := Prod.mk.inj (Except.ok.inj hc')
  have hin : s.console.cursor.InRows := ⟨hdrawn.sized.fitting.columns_pos, hdrawn.sized.row⟩
  obtain ⟨hrep, hcolumn, hexec, hcolumns, -⟩ := of_consoleCommand
    (hsteady.represents.withScreen s.console.cursor s.console.cursorTick false) hin hc₁
  have hcwd : c₁.shell.cwd = destination s.console.shell ed.line := leads_execute _ _ _ _ _ _ hexec
  have hcursor := cursor_of_command hc₁
  dsimp only at hcursor
  have hhide := drawn_cursor hdrawn hsteady.columns_lt.2 false s.console.cursorTick
  have hclear := isClear_entered font hhide.sized hhide.below (linesEnd_execute _ _ _ _ _ hexec) c₁.shell.cwd
  rw [← hcursor] at hclear
  refine ⟨⟨hrep.withScreen _ _ _, hsteady.printable.enter, ?_, ?_⟩, hcolumns,
    drawn_of_isClear font hclear hcolumn hrep.line_eq⟩
  · rw [hcwd]
    exact length_destination_le hsteady.cwd ed.line
  · rw [hcolumn, hrep.cursor]
    rfl

end Events

theorem screenBlink_console (now frequency : UInt64) (s : Screen) :
    (screenBlink now frequency s).console = blink now frequency s.console := by
  unfold screenBlink
  split_ifs <;> rfl

/-- A tick changes neither the line nor the place of the cursor. -/
theorem onInk_blink (font : Font) (now frequency : UInt64) (s : Screen) :
    OnInk font (screenBlink now frequency s).console ↔ OnInk font s.console := by
  obtain ⟨cursorVisible, cursorTick, heq⟩ := blink_eq now frequency s.console
  rw [screenBlink_console, heq]
  rfl

theorem drawn_blink {font : Font} {s : Screen} (h : Drawn font s)
    (hcolumn : s.console.cursor.column < 2 ^ 16) (now frequency : UInt64) :
    Drawn font (screenBlink now frequency s) := by
  rw [screenBlink, blink]
  by_cases hdue : (if frequency / 2 ≠ 0 then frequency / 2 else 1) ≤ now - s.console.cursorTick
  · rw [if_pos hdue, if_pos hdue]
    exact drawn_cursor h hcolumn _ _
  · rw [if_neg hdue, if_neg hdue]
    exact h

theorem drawn_init (font : Font) {fb : Framebuffer} (fs : State) (h : fb.Usable) (hwidth : 25 ≤ fb.width)
    (hheight : 32 ≤ fb.height) (now : UInt64) : ∃ s, screenInit font fb now ⟨fs, [slash]⟩ = .ok s ∧
      Steady s.console ⟨[], [], [], 0⟩ ∧ s.console.shell = ⟨fs, [slash]⟩ ∧
      s.console.cursor.columns = cellCount fb.width 9 ∧ Drawn font s := by
  obtain ⟨c, hc, hrep, hshell, hcolumn, hcolumns, -⟩ := consoleInit_returns fb.width fb.height now ⟨fs, [slash]⟩
  have hsteady : Steady c ⟨[], [], [], 0⟩ := by
    refine ⟨hrep, ⟨fun ch hch => absurd hch List.not_mem_nil, fun line hline => absurd hline List.not_mem_nil⟩, ?_, ?_⟩
    · rw [hshell]
      exact Nat.le_of_ble_eq_true rfl
    · rw [hcolumn, hshell, hrep.cursor]
      rfl
  have hclear := (isClear_consoleClear h hwidth hheight).prompt font rfl [slash]
  have hdrawn : Drawn font ⟨c, ((promptText [slash]).foldl (consolePutc font) (consoleClear fb)).fb⟩ := by
    refine drawn_of_isClear font ?_ ?_ hrep.line_eq
    · rw [(cursor_of_prompt hc).2]
      exact hclear
    · rw [hcolumn, hshell]
  rw [screenInit, hc, ok_bind]
  exact ⟨_, rfl, hsteady, hshell, hcolumns, drawn_cursor hdrawn hsteady.columns_lt.2 c.cursorVisible c.cursorTick⟩

theorem Steady.blink {c : ConsoleState} {ed : Editor} (h : Steady c ed) (now frequency : UInt64) :
    Steady (blink now frequency c) ed := by
  obtain ⟨cursorVisible, cursorTick, heq⟩ := blink_eq now frequency c
  rw [heq]
  exact ⟨h.represents.withScreen _ _ _, h.printable, h.cwd, h.column⟩

/-! ## Runs -/

/-- The states of a console on this framebuffer, with what it shows, over any filesystem. There is no event after a
`reboot` or a `shutdown`. -/
inductive ScreenRun (font : Font) (fb : Framebuffer) (fs : State) : Screen → Prop
  | init {now : UInt64} {s : Screen} (h : screenInit font fb now ⟨fs, [slash]⟩ = .ok s) : ScreenRun font fb fs s
  | event {s s' : Screen} {m : Moment} {effects : List Effect} (h : ScreenRun font fb fs s)
      (hevent : screenEvent font m s = .ok (effects, s')) (hhalt : .halt ∉ effects) : ScreenRun font fb fs s'
  | blink {s : Screen} (now frequency : UInt64) (h : ScreenRun font fb fs s) :
      ScreenRun font fb fs (screenBlink now frequency s)

section Runs

variable {font : Font} {fb : Framebuffer} {fs : State} (h : fb.Usable) (hwidth : 25 ≤ fb.width)
  (hheight : 32 ≤ fb.height) {s : Screen}
include h hwidth hheight

/-- **In every run the line is drawn.** -/
theorem ScreenRun.drawn (hr : ScreenRun font fb fs s) :
    Drawn font s ∧ s.console.cursor.columns = cellCount fb.width 9 ∧ ∃ ed, Steady s.console ed := by
  induction hr with
  | init hinit =>
    rename_i now s
    obtain ⟨s', hs', hsteady, -, hcolumns, hdrawn⟩ := drawn_init font fs h hwidth hheight now
    obtain rfl := Except.ok.inj (hinit.symm.trans hs')
    exact ⟨hdrawn, hcolumns, _, hsteady⟩
  | event _ hevent _ ih =>
    rename_i s s' m effects _ _
    obtain ⟨hdrawn, hcolumns, ed, hsteady⟩ := ih
    by_cases hm : m.Enters
    · obtain ⟨hsteady', hcolumns', hdrawn'⟩ := drawn_enter hdrawn hsteady hm hevent
      exact ⟨hdrawn', hcolumns'.trans hcolumns, _, hsteady'⟩
    · obtain ⟨s'', hs'', hc, hdrawn'⟩ := exists_screenEvent_key hdrawn hsteady hm
      obtain ⟨-, rfl⟩ := Prod.mk.inj (Except.ok.inj (hevent.symm.trans hs''))
      obtain ⟨c', hc', hsteady', -, hcursor, -⟩ := exists_steady_key hsteady hm
      obtain ⟨-, rfl⟩ := Prod.mk.inj (Except.ok.inj (hc.symm.trans hc'))
      refine ⟨hdrawn', ?_, _, hsteady'⟩
      rw [hcursor]
      exact hcolumns
  | blink now frequency _ ih =>
    obtain ⟨hdrawn, hcolumns, ed, hsteady⟩ := ih
    obtain ⟨cursorVisible, cursorTick, heq⟩ := blink_eq now frequency _
    refine ⟨drawn_blink hdrawn hsteady.columns_lt.2 now frequency, ?_, ed, ?_⟩
    · rw [screenBlink_console, heq]
      exact hcolumns
    · rw [screenBlink_console]
      exact hsteady.blink now frequency

/-- A run goes on with a key. -/
theorem ScreenRun.exists_key {ed : Editor} (hr : ScreenRun font fb fs s) (hsteady : Steady s.console ed) {m : Moment}
    (hm : ¬ m.Enters) (hpressed : m.event.pressed ≠ 0) : ∃ s', ScreenRun font fb fs s' ∧
      Steady s'.console (ed.key (consolePromptColumns s.console.shell.cwd) m.event) ∧
      s'.console.shell = s.console.shell ∧ s'.console.cursorVisible = true ∧ s'.console.cursorTick = m.now := by
  obtain ⟨hdrawn, -⟩ := hr.drawn h hwidth hheight
  obtain ⟨s', hs', hc, -⟩ := exists_screenEvent_key hdrawn hsteady hm
  obtain ⟨c', hc', hsteady', hshell, -, hvisible⟩ := exists_steady_key hsteady hm
  obtain ⟨-, rfl⟩ := Prod.mk.inj (Except.ok.inj (hc.symm.trans hc'))
  exact ⟨s', .event hr hs' List.not_mem_nil, hsteady', hshell, hvisible hpressed⟩

/-- **When blinking keeps the text**: in every run, if the cursor is hidden at the end of `console_poll`, then the
row shows the line exactly if the tick did not find the cursor on a character with a pixel. -/
theorem blink_shows_line_iff (hr : ScreenRun font fb fs s) {now frequency : UInt64}
    (hhidden : (screenBlink now frequency s).console.cursorVisible = false) :
    RowShows font (screenBlink now frequency s) ↔ ¬ OnInk font s.console := by
  obtain ⟨hdrawn, -, ed, hsteady⟩ := (hr.blink now frequency).drawn h hwidth hheight
  rw [hdrawn.rowShows_iff hsteady.column hhidden, onInk_blink]

end Runs

/-! ### One character -/

/-- The `a` of `font_8x16_basic`, in a font that has no other glyph -/
def fontOfA : Font := fun glyph row =>
  if glyph = 65 then [0, 0, 0, 0, 0x78, 0x0C, 0x7C, 0xCC, 0xCC, 0xCC, 0x76].getD row 0 else 0

/-- A screen of 640 by 480 pixels -/
def vga : Framebuffer := ⟨1, 640, 480, 640, 1, fun _ => 0⟩

theorem usable_vga : vga.Usable := ⟨by decide, by decide, by decide⟩

/-- The letter `a` is typed after booting from an empty disk. -/
theorem exists_typed_a : ∃ s, ScreenRun fontOfA vga (mount (blankDisk 65536)).2 s ∧
    Steady s.console ⟨text "a", [], [], 0⟩ ∧ s.console.shell.cwd = [slash] ∧ s.console.cursorVisible = true ∧
    s.console.cursorTick = 0 := by
  obtain ⟨s, hs, hsteady, hshell, -⟩ :=
    drawn_init fontOfA (mount (blankDisk 65536)).2 usable_vga (by decide) (by decide) 0
  obtain ⟨s', hr, hsteady', hshell', hvisible, htick⟩ := ScreenRun.exists_key usable_vga (by decide) (by decide)
    (.init hs) hsteady types_a.not_enters (by decide)
  rw [types_a.key_eq] at hsteady'
  exact ⟨s', hr, hsteady', by rw [hshell', hshell], hvisible, htick⟩

/-- The tick that hides the cursor -/
theorem hidden_of_tick {s : Screen} (hvisible : s.console.cursorVisible = true) (htick : s.console.cursorTick = 0) :
    (screenBlink 1 0 s).console.cursorVisible = false := by
  rw [screenBlink_console, blink, htick, if_pos (by decide), hvisible]
  rfl

/-- Behind its end the cursor blinks and the line stays. -/
theorem blink_shows_line_a : ∃ s, ScreenRun fontOfA vga (mount (blankDisk 65536)).2 s ∧
    s.console.line = text "a" ∧ (screenBlink 1 0 s).console.cursorVisible = false ∧
    RowShows fontOfA (screenBlink 1 0 s) := by
  obtain ⟨s, hr, hsteady, -, hvisible, htick⟩ := exists_typed_a
  have hrep := hsteady.represents
  have hhidden := hidden_of_tick hvisible htick
  refine ⟨s, hr, hrep.line_eq, hhidden,
    (blink_shows_line_iff usable_vga (by decide) (by decide) hr hhidden).mpr ?_⟩
  rintro ⟨-, ch, hch, -⟩
  rw [hrep.line_eq, hrep.cursor] at hch
  cases hch

/-- Left of the letter the cursor blinks once, and the letter is gone. -/
theorem blink_erases_a : ∃ s, ScreenRun fontOfA vga (mount (blankDisk 65536)).2 s ∧ s.console.line = text "a" ∧
    consolePromptColumns s.console.shell.cwd + s.console.commandLength ≤ s.console.cursor.columns ∧
    (screenBlink 1 0 s).console.cursorVisible = false ∧ ¬ RowShows fontOfA (screenBlink 1 0 s) := by
  obtain ⟨s, hr, hsteady, hcwd, -, -⟩ := exists_typed_a
  obtain ⟨s', hr', hsteady', hshell, hvisible, htick⟩ := hr.exists_key usable_vga (by decide) (by decide) hsteady
    (m := press .left 0) (by decide) (by decide)
  have hleft : (⟨text "a", [], [], 0⟩ : Editor).key (consolePromptColumns s.console.shell.cwd) (press .left 0).event =
      ⟨[], text "a", [], 0⟩ := by
    simp [Editor.key, press, text]
  rw [hleft] at hsteady'
  rw [← hshell] at hcwd
  have hrep := hsteady'.represents
  have hhidden := hidden_of_tick hvisible htick
  obtain ⟨-, hcolumns, -⟩ := hr'.drawn usable_vga (by decide) (by decide)
  refine ⟨s', hr', hrep.line_eq, ?_, hhidden, ?_⟩
  · rw [hcwd, hrep.length, hcolumns]
    decide
  obtain ⟨hdrawn, -, ed, hsteady''⟩ := (hr'.blink 1 0).drawn usable_vga (by decide) (by decide)
  rw [hdrawn.rowShows_iff hsteady''.column hhidden, not_not, onInk_blink]
  refine ⟨?_, 97, ?_, 1, 4, by decide, by decide, by decide⟩
  · rw [hcwd, hrep.cursor, hcolumns]
    decide
  · rw [hrep.line_eq, hrep.cursor]
    rfl

end MinOS.Console
