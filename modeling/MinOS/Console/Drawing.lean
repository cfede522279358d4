/-
# MinOS.Console.Drawing — what the console draws.

`MinOS.Console.Poll` leaves out what is drawn; here it is added. Two writers share the row of the command line. Keys
that change the line or move the cursor redraw it (`drawCommand`), and the timer paints the cell of the cursor, in
one colour or in that of the background (`consoleCursor`). Lines that are entered scroll the screen, and then there
is nothing from the cursor on (`IsClear`): the row of a new prompt is blank behind it.
-/
import MinOS.Console.Lines
import MinOS.Console.Pixels

namespace MinOS.Console

open MinOS.Vfs MinOS.Ata MinOS.Input Machine

/-! ## Functions of `console.c` -/

/-- `CONSOLE_CURSOR` -/
def consoleCursorColor : UInt32 := 0xFF38BDF8

/-- `console_cursor` -/
def consoleCursor (c : ConsoleState) (fb : Framebuffer) : Framebuffer :=
  let x := u32 (16 + c.cursor.column * 9)
  let y := u32 (16 + c.cursor.row * 18)
  if c.cursorVisible then fbFillRect x y 8 16 consoleCursorColor fb else fbFillRect x y 8 16 consoleBg fb

/-- `console_redraw_command`: the pixels. Where the cursor is afterwards is in `consoleRedrawCommand`. -/
def drawCommand (font : Font) (c : ConsoleState) (fb : Framebuffer) : Except Crash Framebuffer := do
  let x := u32 (16 + consolePromptColumns c.shell.cwd * 9)
  let y := u32 (16 + c.cursor.row * 18)
  let width := if x < fb.width then fb.width - x else 0
  let str ← cString c.command
  .ok (fbDrawString font x consoleFg consoleBg x y str (fbFillRect x y width 16 consoleBg fb))

/-- The branch of this key calls `console_redraw_command`, at its end. -/
def Redraws (event : Event) (c : ConsoleState) : Prop :=
  if event.key = .backspace then c.commandCursor ≠ 0
  else if event.key = .tab then True
  else if event.key = .left then c.commandCursor ≠ 0
  else if event.key = .right then c.commandCursor < c.commandLength
  else if event.key = .up then c.historyCount ≠ 0
  else if event.key = .down then c.historyIndex ≠ 0
  else if event.modifiers &&& modCtrl ≠ 0 ∧ event.key = .a then True
  else if event.modifiers &&& modCtrl ≠ 0 ∧ event.key = .e then True
  else if event.modifiers &&& modCtrl ≠ 0 ∧ event.key = .u then True
  else if event.modifiers &&& modCtrl ≠ 0 ∧ event.key = .k then True
  else 32 ≤ event.character ∧ event.character ≤ 126 ∧ c.commandLength < commandMax

instance decidableRedraws (event : Event) (c : ConsoleState) : Decidable (Redraws event c) :=
  inferInstanceAs (Decidable (ite _ _ _))

/-- What an effect of a command does to the screen -/
def Display.effect (font : Font) (s : Display) : Effect → Display
  | .putc c => consolePutc font s c
  | .clear => { fb := fbClear consoleBg s.fb, cursor := { s.cursor with column := 0, row := 0 } }
  | _ => s

/-- The text of `console_prompt` -/
def promptText (cwd : List UInt8) : List UInt8 := text "MinOS:" ++ (cwd ++ text "> ")

/-- The Enter key: the cursor is taken away, and then come the line break, what the command prints, and the prompt
of the directory `cwd` it leads to. -/
def drawEntered (font : Font) (effects : List Effect) (cwd : List UInt8) (c : ConsoleState) (fb : Framebuffer) :
    Framebuffer :=
  let s : Display := ⟨consoleCursor { c with cursorVisible := false } fb, c.cursor⟩
  let s := effects.foldl (Display.effect font) (consolePutc font s newline)
  ((promptText cwd).foldl (consolePutc font) s).fb

/-- The console and the framebuffer -/
structure Screen where
  console : ConsoleState
  fb : Framebuffer

/-- The body of the loop in `console_poll`, with what it draws -/
def screenEvent (font : Font) (m : Moment) (s : Screen) : Except Crash (List Effect × Screen) := do
  let (effects, c) ← consoleEvent m s.console
  if m.event.pressed = 0 then .ok (effects, ⟨c, s.fb⟩)
  else if m.event.key = .enter then .ok (effects, ⟨c, drawEntered font effects c.shell.cwd s.console s.fb⟩)
  else if Redraws m.event s.console then do
    let fb ← drawCommand font c s.fb
    .ok (effects, ⟨c, fb⟩)
  else .ok (effects, ⟨c, s.fb⟩)

/-- The end of `console_poll`, with what it draws -/
def screenBlink (now frequency : UInt64) (s : Screen) : Screen :=
  let c := blink now frequency s.console
  if (if frequency / 2 ≠ 0 then frequency / 2 else 1) ≤ now - s.console.cursorTick then ⟨c, consoleCursor c s.fb⟩
  else ⟨c, s.fb⟩

/-- `console_init`, with what it draws -/
def screenInit (font : Font) (fb : Framebuffer) (now : UInt64) (shell : Shell) : Except Crash Screen := do
  let c ← consoleInit fb.width fb.height now shell
  let s := (promptText shell.cwd).foldl (consolePutc font) (consoleClear fb)
  .ok ⟨c, consoleCursor c s.fb⟩

/-! ## Room for the cells -/

/-- A framebuffer with room for a cell, and a cursor in a row of it -/
structure Sized (fb : Framebuffer) (k : Cursor) : Prop where
  usable : fb.Usable
  width : 25 ≤ fb.width
  height : 32 ≤ fb.height
  columns : k.columns = cellCount fb.width 9
  rows : k.rows = cellCount fb.height 18
  row : k.row < k.rows

/-- No coordinate wraps, and every cell is on the screen. The last row may lack the two pixels below it. -/
structure Fitting (fb : Framebuffer) (k : Cursor) : Prop where
  width_lt : fb.width < 2 ^ 32
  height_lt : fb.height < 2 ^ 32
  columns_pos : 0 < k.columns
  columns_le : 16 + k.columns * 9 ≤ fb.width
  rows_le : 16 + k.rows * 18 ≤ fb.height ∨ k.rows = 1
  row_le : 16 + k.row * 18 + 16 ≤ fb.height

section Room

variable {fb fb' : Framebuffer} {k k' : Cursor} (h : Sized fb k)
include h

theorem Sized.fitting : Fitting fb k := by
  have hwidth := h.width
  have hheight := h.height
  have hrow := h.row
  have hpitch := h.usable.width
  obtain ⟨hpitch', hheight'⟩ := h.usable.sizes_lt (by omega) (by omega)
  have hcolumns : k.columns = (fb.width - 16) / 9 := by
    rw [h.columns, cellCount, if_pos (by omega), Nat.max_eq_left (by omega)]
  have hrows : 16 + k.rows * 18 ≤ fb.height ∨ k.rows = 1 := by
    rw [h.rows, cellCount, if_pos (by omega)]
    omega
  refine ⟨by omega, hheight', by omega, by omega, hrows, ?_⟩
  rcases hrows with hrows | hrows <;> omega

omit h in
theorem Fitting.u32_top (hfit : Fitting fb k) : u32 (16 + k.row * 18) = 16 + k.row * 18 := by
  have hrow := hfit.row_le
  have hheight := hfit.height_lt
  exact Nat.mod_eq_of_lt (by omega)

/-- The cursor moves, and the framebuffer is painted. -/
theorem Sized.paint {picture : Nat → Nat → UInt32} (hp : Paints fb fb' picture) (hcolumns : k'.columns = k.columns)
    (hrows : k'.rows = k.rows) (hrow : k'.row < k.rows) : Sized fb' k' := by
  refine ⟨hp.usable h.usable, ?_, ?_, ?_, ?_, hrows ▸ hrow⟩
  · rw [hp.width_eq]
    exact h.width
  · rw [hp.height_eq]
    exact h.height
  · rw [hp.width_eq, hcolumns, h.columns]
  · rw [hp.height_eq, hrows, h.rows]

end Room

/-! ## Nothing from the cursor on -/

/-- The pixel has the colour of the background. -/
def IsBlank (fb : Framebuffer) (x y : Nat) : Prop := fb.pixel x y = convertColor fb.isBgr consoleBg

/-- There is nothing below this row. -/
def BlankBelow (fb : Framebuffer) (row : Nat) : Prop :=
  ∀ x y, x < fb.width → y < fb.height → 16 + row * 18 + 18 ≤ y → IsBlank fb x y

/-- There is nothing in this row from this column on. -/
def BlankRight (fb : Framebuffer) (row column : Nat) : Prop :=
  ∀ x y, x < fb.width → y < fb.height → 16 + row * 18 ≤ y → y < 16 + row * 18 + 18 → 16 + column * 9 ≤ x →
    IsBlank fb x y

/-- There is nothing from the cursor on. -/
structure IsClear (s : Display) : Prop where
  sized : Sized s.fb s.cursor
  below : BlankBelow s.fb s.cursor.row
  right : BlankRight s.fb s.cursor.row s.cursor.column

/-- Painting that leaves a blank place blank -/
theorem isBlank_paint {fb fb' : Framebuffer} {picture : Nat → Nat → UInt32} (hp : Paints fb fb' picture) {x y : Nat}
    (hx : x < fb'.width) (hy : y < fb'.height) (hpicture : picture x y = convertColor fb.isBgr consoleBg) :
    IsBlank fb' x y := by
  rw [hp.width_eq] at hx
  rw [hp.height_eq] at hy
  rw [IsBlank, hp.pixel x y hx hy, hpicture, hp.isBgr_eq]

/-- Painting inside the rows above -/
theorem BlankBelow.paint {fb fb' : Framebuffer} {row : Nat} {picture : Nat → Nat → UInt32} (h : BlankBelow fb row)
    (hp : Paints fb fb' picture) (hsame : ∀ x y, 16 + row * 18 + 18 ≤ y → picture x y = fb.pixel x y) :
    BlankBelow fb' row := by
  intro x y hx hy hrow
  refine isBlank_paint hp hx hy ?_
  rw [hsame x y hrow]
  exact h x y (hp.width_eq ▸ hx) (hp.height_eq ▸ hy) hrow

section Clear

variable (font : Font) {s : Display}

/-- **A new line** needs only that there is nothing below. -/
theorem isClear_newline (h : Sized s.fb s.cursor) (hbelow : BlankBelow s.fb s.cursor.row) :
    IsClear (consoleNewline s) := by
  have hrow := h.row
  have hfit := h.fitting
  rw [consoleNewline, Cursor.newline]
  by_cases hnext : s.cursor.rows ≤ s.cursor.row + 1
  · -- the last row scrolls
    have hrows := hfit.rows_le
    have hheight := hfit.height_lt
    have hwidth := h.width
    have hlines : u32 (s.cursor.rows * 18) = s.cursor.rows * 18 := Nat.mod_eq_of_lt (by omega)
    have hscroll := paints_scrollUp h.usable
      (show 16 + s.cursor.rows * 18 < 2 ^ 32 by omega) (by omega) (show 18 ≤ s.cursor.rows * 18 by omega) consoleBg
    rw [if_pos hnext, if_pos hnext, hlines]
    have hblank : ∀ x y, x < s.fb.width → y < s.fb.height → 16 + (s.cursor.rows - 1) * 18 ≤ y →
        IsBlank (fbScrollUp 16 (s.cursor.rows * 18) 1 consoleBg s.fb) x y := by
      intro x y hx hy hlast
      refine isBlank_paint hscroll (hscroll.width_eq ▸ hx) (hscroll.height_eq ▸ hy) ?_
      rw [if_neg (by omega)]
      split
      · rfl
      · exact hbelow x y hx hy (by omega)
    refine ⟨h.paint hscroll rfl rfl (show s.cursor.rows - 1 < s.cursor.rows by omega), ?_, ?_⟩
    · intro x y hx hy hy'
      dsimp only at hx hy hy' ⊢
      exact hblank x y (hscroll.width_eq ▸ hx) (hscroll.height_eq ▸ hy) (by omega)
    · intro x y hx hy hy' _ _
      exact hblank x y (hscroll.width_eq ▸ hx) (hscroll.height_eq ▸ hy) hy'
  · rw [if_neg hnext, if_neg hnext]
    refine ⟨h.paint (paints_self s.fb) rfl rfl (show s.cursor.row + 1 < s.cursor.rows by omega), ?_, ?_⟩
    · intro x y hx hy hy'
      dsimp only at hx hy hy' ⊢
      exact hbelow x y hx hy (by omega)
    · intro x y hx hy hy' _ _
      dsimp only at hx hy hy' ⊢
      exact hbelow x y hx hy (by omega)

theorem IsClear.newline (h : IsClear s) : IsClear (consoleNewline s) := isClear_newline h.sized h.below

/-- A character in the row -/
theorem IsClear.write (h : IsClear s) (hcolumn : s.cursor.column < s.cursor.columns) (c : UInt8) : IsClear
    { fb := fbDrawChar font (u32 (16 + s.cursor.column * 9)) (u32 (16 + s.cursor.row * 18)) c consoleFg consoleBg s.fb
      cursor := { s.cursor with column := s.cursor.column + 1 } } := by
  have hfit := h.sized.fitting
  have hwidth := hfit.width_lt
  have hcolumns := hfit.columns_le
  have hheight := hfit.height_lt
  have hrow := hfit.row_le
  rw [hfit.u32_top,
    show u32 (16 + s.cursor.column * 9) = 16 + s.cursor.column * 9 from Nat.mod_eq_of_lt (by omega)]
  have hdraw := paints_drawChar h.sized.usable (show 16 + s.cursor.column * 9 + 8 ≤ 2 ^ 32 by omega)
    (show 16 + s.cursor.row * 18 + 16 ≤ 2 ^ 32 by omega) font c consoleFg (show consoleBg ≠ 0 by decide)
  refine ⟨h.sized.paint hdraw rfl rfl h.sized.row, ?_, ?_⟩
  · exact h.below.paint hdraw fun x y hy => if_neg (by omega)
  · intro x y hx hy hy' hy'' hx'
    refine isBlank_paint hdraw hx hy ?_
    dsimp only at hy' hy'' hx' ⊢
    rw [if_neg (by omega)]
    exact h.right x y (hdraw.width_eq ▸ hx) (hdraw.height_eq ▸ hy) hy' hy'' (by omega)

theorem IsClear.putc (h : IsClear s) (c : UInt8) : IsClear (consolePutc font s c) := by
  unfold consolePutc
  split
  · exact h.newline
  split
  · exact h
  dsimp only
  split
  · exact h.newline.write font h.sized.fitting.columns_pos c
  · rename_i hroom
    exact h.write font (Nat.lt_of_not_le hroom) c

theorem IsClear.puts (h : IsClear s) (text : List UInt8) : IsClear (text.foldl (consolePutc font) s) := by
  induction text generalizing s with
  | nil => exact h
  | cons c text ih => exact ih (h.putc font c)

/-- Everything is cleared. -/
theorem IsClear.clear (h : IsClear s) :
    IsClear { fb := fbClear consoleBg s.fb, cursor := { s.cursor with column := 0, row := 0 } } := by
  have hclear := paints_clear h.sized.usable consoleBg
  refine ⟨h.sized.paint hclear rfl rfl (Nat.lt_of_le_of_lt (Nat.zero_le _) h.sized.row), ?_, ?_⟩
  · exact fun x y hx hy _ => isBlank_paint hclear hx hy rfl
  · exact fun x y hx hy _ _ _ => isBlank_paint hclear hx hy rfl

omit font in
/-- At the start -/
theorem isClear_consoleClear {fb : Framebuffer} (h : fb.Usable) (hwidth : 25 ≤ fb.width) (hheight : 32 ≤ fb.height) :
    IsClear (consoleClear fb) := by
  have hclear := paints_clear h consoleBg
  have hin := (inRows_init fb.width fb.height).row
  have hsized : Sized fb (Cursor.init fb.width fb.height) := ⟨h, hwidth, hheight, rfl, rfl, hin⟩
  refine ⟨hsized.paint hclear rfl rfl hin, ?_, ?_⟩
  · exact fun x y hx hy _ => isBlank_paint hclear hx hy rfl
  · exact fun x y hx hy _ _ _ => isBlank_paint hclear hx hy rfl

theorem IsClear.effect (h : IsClear s) (e : Effect) : IsClear (s.effect font e) := by
  cases e with
  | putc c => exact h.putc font c
  | clear => exact h.clear
  | normalize | call | halt => exact h

theorem IsClear.effects (h : IsClear s) (effects : List Effect) : IsClear (effects.foldl (Display.effect font) s) := by
  induction effects generalizing s with
  | nil => exact h
  | cons e effects ih => exact ih (h.effect font e)

end Clear

/-! ## The cursor -/

theorem cursor_of_effect (font : Font) (s : Display) (e : Effect) : (s.effect font e).cursor = s.cursor.effect e := by
  cases e with
  | putc c => exact consolePutc_cursor font s c
  | clear | normalize | call | halt => rfl

theorem cursor_of_effects (font : Font) (s : Display) (effects : List Effect) :
    (effects.foldl (Display.effect font) s).cursor = effects.foldl Cursor.effect s.cursor := by
  induction effects generalizing s with
  | nil => rfl
  | cons e effects ih => rw [List.foldl_cons, ih, List.foldl_cons, cursor_of_effect]

theorem cursor_of_puts (font : Font) (s : Display) (text : List UInt8) :
    (text.foldl (consolePutc font) s).cursor = s.cursor.puts text := by
  induction text generalizing s with
  | nil => rfl
  | cons c text ih =>
    rw [List.foldl_cons, ih, consolePutc_cursor]
    rfl

/-- A character moves the cursor by a column at most. -/
theorem Cursor.putc_column_le (k : Cursor) (c : UInt8) : (k.putc c).column ≤ k.column + 1 := by
  unfold Cursor.putc
  split
  · exact Nat.zero_le _
  split
  · exact Nat.le_succ _
  dsimp only
  split
  · exact Nat.succ_le_succ (Nat.zero_le _)
  · exact Nat.le_refl _

theorem Cursor.puts_column_le (k : Cursor) (s : List UInt8) : (k.puts s).column ≤ k.column + s.length := by
  induction s generalizing k with
  | nil => exact Nat.le_refl _
  | cons c s ih =>
    have hrest := ih (k.putc c)
    have hfirst := k.putc_column_le c
    rw [List.length_cons]
    exact Nat.le_trans hrest (by omega)

/-- Where the cursor is after a prompt -/
def Cursor.prompt (k : Cursor) (cwd : List UInt8) : Cursor :=
  { k.puts (promptText cwd) with column := consolePromptColumns cwd }

theorem length_promptText (cwd : List UInt8) : (promptText cwd).length = consolePromptColumns cwd := by
  rw [promptText, List.length_append, List.length_append, consolePromptColumns]
  have hfront : (text "MinOS:").length = 6 := rfl
  have hback : (text "> ").length = 2 := rfl
  omega

theorem cursor_of_prompt {c c' : ConsoleState} (h : consolePrompt c = .ok c') :
    c'.shell = c.shell ∧ c'.cursor = c.cursor.prompt c.shell.cwd := by
  obtain ⟨command, -, hc'⟩ := bind_eq_ok_iff.mp h
  obtain rfl := Except.ok.inj hc'
  exact ⟨rfl, rfl⟩

theorem cursor_of_addHistory {line : List UInt8} {c c' : ConsoleState} (h : consoleAddHistory line c = .ok c') :
    c'.cursor = c.cursor := by
  obtain ⟨entered, -, h⟩ := bind_eq_ok_iff.mp h
  split at h
  · exact Except.ok.inj h ▸ rfl
  obtain ⟨known, -, h⟩ := bind_eq_ok_iff.mp h
  split at h
  · exact Except.ok.inj h ▸ rfl
  obtain ⟨history, -, h⟩ := bind_eq_ok_iff.mp h
  obtain ⟨history', -, h⟩ := bind_eq_ok_iff.mp h
  exact Except.ok.inj h ▸ rfl

/-- A command that was entered leaves the cursor behind the next prompt. -/
theorem cursor_of_command {env : Env} {junk : Junk} {c c' : ConsoleState} {effects : List Effect}
    (h : consoleCommand env junk c = .ok (effects, c')) :
    c'.cursor = (effects.foldl Cursor.effect (c.cursor.putc newline)).prompt c'.shell.cwd := by
  obtain ⟨command, -, h⟩ := bind_eq_ok_iff.mp h
  obtain ⟨line, -, h⟩ := bind_eq_ok_iff.mp h
  obtain ⟨c₁, hadd, h⟩ := bind_eq_ok_iff.mp h
  obtain ⟨entered, -, h⟩ := bind_eq_ok_iff.mp h
  obtain ⟨lines, -, h⟩ := bind_eq_ok_iff.mp h
  obtain ⟨⟨effects', shell⟩, -, h⟩ := bind_eq_ok_iff.mp h
  obtain ⟨c₂, hprompt, h⟩ := bind_eq_ok_iff.mp h
  obtain ⟨rfl, rfl⟩ := Prod.mk.inj (Except.ok.inj h)
  obtain ⟨hshell, hcursor⟩ := cursor_of_prompt hprompt
  rw [hcursor, hshell]
  dsimp only
  rw [cursor_of_addHistory hadd]

/-- **The row of a new prompt is blank behind it**: the prompt starts in the first column. -/
theorem IsClear.prompt (font : Font) {s : Display} (h : IsClear s) (hcolumn : s.cursor.column = 0)
    (cwd : List UInt8) : IsClear ⟨((promptText cwd).foldl (consolePutc font) s).fb, s.cursor.prompt cwd⟩ := by
  have hputs := h.puts font (promptText cwd)
  have hle := s.cursor.puts_column_le (promptText cwd)
  rw [hcolumn, length_promptText, ← cursor_of_puts font] at hle
  have hsized := hputs.sized
  have hbelow := hputs.below
  have hright := hputs.right
  refine ⟨?_, ?_, ?_⟩
  · rw [Cursor.prompt, ← cursor_of_puts font]
    exact ⟨hsized.usable, hsized.width, hsized.height, hsized.columns, hsized.rows, hsized.row⟩
  · rw [Cursor.prompt, ← cursor_of_puts font]
    exact hbelow
  · rw [Cursor.prompt, ← cursor_of_puts font]
    intro x y hx hy hy' hy'' hx'
    dsimp only at hx'
    exact hright x y hx hy hy' hy'' (by omega)

/-- The same after the Enter key: the cursor is taken away inside its row, and every command ends with a line
break. -/
theorem isClear_entered (font : Font) {c : ConsoleState} {fb : Framebuffer}
    (hsized : Sized (consoleCursor { c with cursorVisible := false } fb) c.cursor)
    (hbelow : BlankBelow (consoleCursor { c with cursorVisible := false } fb) c.cursor.row) {effects : List Effect}
    (hends : EndsLine effects) (cwd : List UInt8) : IsClear ⟨drawEntered font effects cwd c fb,
      (effects.foldl Cursor.effect (c.cursor.putc newline)).prompt cwd⟩ := by
  have hbreak : IsClear (consolePutc font ⟨consoleCursor { c with cursorVisible := false } fb, c.cursor⟩ newline) :=
    isClear_newline hsized hbelow
  have houtput := hbreak.effects font effects
  have hcursor := cursor_of_effects font
    (consolePutc font ⟨consoleCursor { c with cursorVisible := false } fb, c.cursor⟩ newline) effects
  rw [consolePutc_cursor] at hcursor
  have hcolumn := hends (c.cursor.putc newline) rfl
  rw [← hcursor] at hcolumn ⊢
  exact houtput.prompt font hcolumn cwd

end MinOS.Console
