/-
# MinOS.Console.Editor — the command line, key by key.

`console_poll` edits the line in a fixed array: a dozen kinds of keys shift its characters by hand and keep its
length, its terminator and the cursor by hand. The line is that of an editor that knows no array: the text before
the cursor and the text behind it (`Editor`). `Represents` relates the two. Every key keeps it
(`exists_event_key`), entering a line keeps it (`exists_event_enter`), and so it holds in every state of a run.
-/
import MinOS.Console.Poll
import MinOS.Vfs.Remount

namespace MinOS.Console

open MinOS.Vfs MinOS.Ata MinOS.Input Machine LineBuffer

/-! ## The editor it is -/

/-- The text before the cursor and the text behind it, the lines to choose from, newest first, and which of them
was chosen last (0 for none) -/
structure Editor where
  before : List UInt8
  after : List UInt8
  lines : List (List UInt8)
  index : Nat
  deriving DecidableEq, Repr

/-- The line -/
def Editor.line (ed : Editor) : List UInt8 := ed.before ++ ed.after

/-- Insert a character, if there is room -/
def Editor.insert (ch : UInt8) (ed : Editor) : Editor :=
  if ed.line.length < commandMax then { ed with before := ed.before ++ [ch] } else ed

/-- Insert spaces, as far as there is room -/
def Editor.insertSpaces : (spaces : Nat) → Editor → Editor
  | 0, ed => ed
  | spaces + 1, ed => Editor.insertSpaces spaces (ed.insert space)

/-- Replace the line, with the cursor at its end -/
def Editor.replace (line : List UInt8) (ed : Editor) : Editor := { ed with before := line, after := [] }

/-- Choose a line; 0 is the empty one -/
def Editor.choose (index : Nat) (ed : Editor) : Editor :=
  { ed with index, before := if index = 0 then [] else ed.lines.getD (index - 1) [], after := [] }

/-- What the keys are for, Enter apart, behind a prompt of so many columns -/
def Editor.key (prompt : Nat) (event : Event) (ed : Editor) : Editor :=
  if event.pressed = 0 then ed
  else if event.key = .backspace then { ed with before := ed.before.dropLast }
  else if event.key = .tab then ed.insertSpaces (tabSpaces (prompt + ed.before.length))
  else if event.key = .left then
    match ed.before.getLast? with
    | some ch => { ed with before := ed.before.dropLast, after := ch :: ed.after }
    | none => ed
  else if event.key = .right then
    match ed.after with
    | ch :: after => { ed with before := ed.before ++ [ch], after }
    | [] => ed
  else if event.key = .up then if ed.lines = [] then ed else ed.choose (min (ed.index + 1) ed.lines.length)
  else if event.key = .down then if ed.index = 0 then ed else ed.choose (ed.index - 1)
  else if event.modifiers &&& modCtrl ≠ 0 ∧ event.key = .a then { ed with before := [], after := ed.line }
  else if event.modifiers &&& modCtrl ≠ 0 ∧ event.key = .e then ed.replace ed.line
  else if event.modifiers &&& modCtrl ≠ 0 ∧ event.key = .u then ed.replace []
  else if event.modifiers &&& modCtrl ≠ 0 ∧ event.key = .k then ed.replace ed.before
  else if 32 ≤ event.character ∧ event.character ≤ 126 then ed.insert event.character
  else ed

/-- What is remembered of a line that is entered. It is compared with the oldest line there is. -/
def addHistory (line : List UInt8) (lines : List (List UInt8)) : List (List UInt8) :=
  if line = [] then lines
  else if ∃ last ∈ lines.getLast?, consoleStreq last line then lines
  else (line :: lines).take historyMax

/-! ## The arrays of an editor -/

/-- An array of `COMMAND_MAX + 1` characters with this string in it -/
def Terminated (array text : List UInt8) : Prop := Holds (commandMax + 1) 0 array text ∧ 0 ∉ text

theorem Terminated.length_le {array text : List UInt8} (h : Terminated array text) : text.length ≤ commandMax :=
  Nat.lt_succ_iff.mp h.1.length_lt

theorem Terminated.cString {array text : List UInt8} (h : Terminated array text) : cString array = .ok text := by
  obtain ⟨⟨-, rest, rfl⟩, hnul⟩ := h
  rw [Console.cString, if_pos (by simp), List.takeWhile_append_of_pos]
  · simp
  · intro a ha
    simpa using fun h0 : a = 0 => hnul (h0 ▸ ha)

/-- The console has the line, the cursor and the history of the editor. -/
structure Represents (c : ConsoleState) (ed : Editor) : Prop where
  command : Terminated c.command ed.line
  cursor : c.commandCursor = ed.before.length
  length : c.commandLength = ed.line.length
  rows : c.history.length = historyMax
  count : c.historyCount ≤ historyMax
  lines : List.Forall₂ Terminated (c.history.take c.historyCount) ed.lines
  index : c.historyIndex = ed.index
  index_le : ed.index ≤ ed.lines.length

section Represents

variable {c : ConsoleState} {ed : Editor} (h : Represents c ed)
include h

theorem Represents.length_lines : ed.lines.length = c.historyCount := by
  rw [← h.lines.length_eq, List.length_take, h.rows, Nat.min_eq_left h.count]

theorem Represents.line_eq : c.line = ed.line := by
  rw [ConsoleState.line, h.length, h.command.1.take]

/-- Another screen in front of the same line -/
theorem Represents.withScreen (cursor : Cursor) (cursorTick : UInt64) (cursorVisible : Bool) :
    Represents { c with cursor, cursorTick, cursorVisible } ed :=
  ⟨h.command, h.cursor, h.length, h.rows, h.count, h.lines, h.index, h.index_le⟩

/-- Another line in the array -/
theorem Represents.withLine {command before after : List UInt8} (hline : Terminated command (before ++ after)) :
    Represents { c with command, commandCursor := before.length, commandLength := (before ++ after).length }
      { ed with before, after } :=
  ⟨hline, rfl, rfl, h.rows, h.count, h.lines, h.index, h.index_le⟩

/-- The cursor somewhere else in the line -/
theorem Represents.withCursor {before after : List UInt8} (hline : before ++ after = ed.line) :
    Represents { c with commandCursor := before.length } { ed with before, after } := by
  refine ⟨?_, rfl, ?_, h.rows, h.count, h.lines, h.index, h.index_le⟩
  · rw [Editor.line, hline]
    exact h.command
  · rw [Editor.line, hline]
    exact h.length

/-- A terminator stored in the line -/
theorem Represents.cut {before after : List UInt8} (hline : before ++ after = ed.line) :
    ∃ b, store Crash.command c.command before.length 0 = .ok b ∧
      Represents { c with command := b, commandLength := before.length, commandCursor := before.length }
        (ed.replace before) := by
  have hcommand := h.command
  rw [← hline] at hcommand
  obtain ⟨b, hb, hholds⟩ := hcommand.1.cut Crash.command
  have hrep : Terminated b (before ++ []) := by
    rw [List.append_nil]
    exact ⟨hholds, fun h0 => hcommand.2 (List.mem_append_left _ h0)⟩
  have hwith := h.withLine hrep
  rw [List.append_nil] at hwith
  exact ⟨b, hb, hwith⟩

/-- The row a line is in -/
theorem Represents.row {i : Nat} {line : List UInt8} (hline : ed.lines[i]? = some line) :
    ∃ row, c.history[i]? = some row ∧ Terminated row line := by
  obtain ⟨hi, rfl⟩ := List.getElem?_eq_some_iff.mp hline
  have hi' : i < (c.history.take c.historyCount).length := by rwa [h.lines.length_eq]
  refine ⟨(c.history.take c.historyCount)[i], ?_, h.lines.get hi' hi⟩
  rw [List.getElem_take, List.getElem?_eq_getElem]

/-- The entry the arrow keys choose -/
theorem Represents.historyEntry {i : Nat} {line : List UInt8} (hline : ed.lines[i]? = some line) :
    historyEntry { c with historyIndex := i + 1 } = .ok line := by
  obtain ⟨hi, -⟩ := List.getElem?_eq_some_iff.mp hline
  obtain ⟨row, hrow, hterm⟩ := h.row hline
  have hmod : (i + 1 - 1) % historyMax = i := by
    have := h.length_lines
    have := h.count
    exact Nat.mod_eq_of_lt (by omega)
  have hload : load Crash.history c.history i = .ok row := by
    rw [load, hrow]
  rw [Console.historyEntry, hmod, hload, ok_bind, hterm.cString]

end Represents

/-! ## Single keys -/

/-- An edit ends with the line of the editor and with the cursor behind the prompt and the text before it. -/
def Edits (x : Except Crash ConsoleState) (c : ConsoleState) (ed : Editor) : Prop :=
  ∃ c', x = .ok c' ∧ Represents c' ed ∧ c'.shell = c.shell ∧
    c'.cursor = { c.cursor with column := consolePromptColumns c.shell.cwd + ed.before.length }

/-- `console_redraw_command` after a change of the line -/
theorem edits_redraw {c c' : ConsoleState} {ed : Editor} (h : Represents c' ed) (hshell : c'.shell = c.shell)
    (hcursor : c'.cursor = c.cursor) : Edits (.ok (consoleRedrawCommand c')) c ed := by
  refine ⟨consoleRedrawCommand c', rfl, h.withScreen _ _ _, hshell, ?_⟩
  rw [consoleRedrawCommand, hshell, hcursor, h.cursor]

section Keys

variable {c : ConsoleState} {ed : Editor} (h : Represents c ed)
include h

theorem edits_setCommand {line : List UInt8} {i : Nat} (hlen : line.length ≤ commandMax) (hnul : 0 ∉ line)
    (hi : i ≤ ed.lines.length) : Edits (consoleSetCommand line { c with historyIndex := i }) c
      { ed with before := line, after := [], index := i } := by
  obtain ⟨b, b', hb, hb', hholds⟩ :=
    overwrite_holds (z := (0 : UInt8)) h.command.1.1 (Nat.lt_succ_of_le hlen) Crash.command
  rw [consoleSetCommand]
  dsimp only
  rw [List.take_of_length_le hlen, hb, ok_bind, hb', ok_bind]
  have hline : Terminated b' (line ++ []) := by
    rw [List.append_nil]
    exact ⟨hholds, hnul⟩
  apply edits_redraw _ rfl rfl
  refine ⟨hline, rfl, ?_, h.rows, h.count, h.lines, rfl, hi⟩
  rw [Editor.line, List.append_nil]

/-- An arrow key that chooses a line -/
theorem edits_choose {i : Nat} (hi : i < ed.lines.length) :
    Edits (do consoleSetCommand (← historyEntry { c with historyIndex := i + 1 }) { c with historyIndex := i + 1 }) c
      (ed.choose (i + 1)) := by
  have hline : ed.lines[i]? = some ed.lines[i] := List.getElem?_eq_getElem hi
  obtain ⟨row, -, hterm⟩ := h.row hline
  have hset := edits_setCommand h hterm.length_le hterm.2 (Nat.succ_le_of_lt hi)
  rw [h.historyEntry hline, ok_bind]
  have hchoose : ed.choose (i + 1) = { ed with before := ed.lines[i], after := [], index := i + 1 } := by
    simp [Editor.choose, hi]
  rw [hchoose]
  exact hset

/-- An edit that changes nothing -/
theorem edits_self (hcolumn : c.cursor.column = consolePromptColumns c.shell.cwd + c.commandCursor) :
    Edits (.ok c) c ed := by
  refine ⟨c, rfl, h, rfl, ?_⟩
  rw [← h.cursor, ← hcolumn]

variable (hcolumn : c.cursor.column = consolePromptColumns c.shell.cwd + c.commandCursor)
include hcolumn

theorem edits_backspace : Edits (backspace c) c { ed with before := ed.before.dropLast } := by
  obtain ⟨before, after, lines, index⟩ := ed
  have hcursor := h.cursor
  rw [backspace]
  rcases List.eq_nil_or_concat' before with rfl | ⟨before, ch, rfl⟩
  · rw [if_neg (by simp [hcursor])]
    exact edits_self h hcolumn
  · have hcommand := h.command
    simp only [Editor.line, List.append_assoc, List.singleton_append] at hcommand
    obtain ⟨b, hb, hholds⟩ := erase_holds hcommand.1 Crash.command
    have hlength := h.length
    simp only [Editor.line, List.length_append, List.length_singleton] at hcursor hlength
    have hsteps : c.commandLength - (c.commandCursor - 1) = after.length + 1 := by omega
    have hindex : c.commandCursor - 1 = before.length := by omega
    have hline : Terminated b (before ++ after) := by
      refine ⟨hholds, fun h0 => hcommand.2 ?_⟩
      rcases List.mem_append.mp h0 with h0 | h0
      · exact List.mem_append_left _ h0
      · exact List.mem_append_right _ (List.mem_cons_of_mem _ h0)
    have hrep := h.withLine hline
    rw [if_pos (by omega)]
    dsimp only
    rw [hsteps, hindex, hb, ok_bind, List.dropLast_concat]
    have hless : c.commandLength - 1 = (before ++ after).length := by
      rw [List.length_append]
      omega
    rw [hless]
    exact edits_redraw hrep rfl rfl

theorem edits_left : Edits (if c.commandCursor ≠ 0 then
      .ok (consoleRedrawCommand { c with commandCursor := c.commandCursor - 1 }) else .ok c) c
    (match ed.before.getLast? with
      | some ch => { ed with before := ed.before.dropLast, after := ch :: ed.after }
      | none => ed) := by
  obtain ⟨before, after, lines, index⟩ := ed
  have hcursor := h.cursor
  rcases List.eq_nil_or_concat' before with rfl | ⟨before, ch, rfl⟩
  · rw [if_neg (by simp [hcursor])]
    exact edits_self h hcolumn
  · rw [List.length_append, List.length_singleton] at hcursor
    rw [if_pos (by omega), show c.commandCursor - 1 = before.length by omega]
    simp only [List.getLast?_concat, List.dropLast_concat]
    exact edits_redraw (h.withCursor (by simp [Editor.line])) rfl rfl

theorem edits_right : Edits (if c.commandCursor < c.commandLength then
      .ok (consoleRedrawCommand { c with commandCursor := c.commandCursor + 1 }) else .ok c) c
    (match ed.after with
      | ch :: after => { ed with before := ed.before ++ [ch], after }
      | [] => ed) := by
  obtain ⟨before, after, lines, index⟩ := ed
  have hcursor := h.cursor
  have hlength := h.length
  simp only [Editor.line, List.length_append] at hcursor hlength
  cases after with
  | nil =>
    rw [List.length_nil] at hlength
    rw [if_neg (by omega)]
    exact edits_self h hcolumn
  | cons ch after =>
    rw [List.length_cons] at hlength
    rw [if_pos (by omega), show c.commandCursor + 1 = (before ++ [ch]).length by simp [hcursor]]
    exact edits_redraw (h.withCursor (by simp [Editor.line])) rfl rfl

theorem edits_up : Edits (recallUp c) c
    (if ed.lines = [] then ed else ed.choose (min (ed.index + 1) ed.lines.length)) := by
  have hcount := h.length_lines
  have hindex := h.index
  have hle := h.index_le
  rw [recallUp]
  by_cases hnil : ed.lines = []
  · rw [if_pos hnil, if_neg (by simp [← hcount, hnil])]
    exact edits_self h hcolumn
  have hpos : 0 < ed.lines.length := List.length_pos_iff.mpr hnil
  rw [if_neg hnil, if_pos (by omega)]
  obtain ⟨i, hi, hchoose⟩ : ∃ i, i < ed.lines.length ∧ min (ed.index + 1) ed.lines.length = i + 1 :=
    ⟨min (ed.index + 1) ed.lines.length - 1, by omega, by omega⟩
  have hmoved : (if c.historyIndex < c.historyCount then { c with historyIndex := c.historyIndex + 1 } else c) =
      { c with historyIndex := i + 1 } := by
    split
    · rw [show c.historyIndex + 1 = i + 1 by omega]
    · rw [← show c.historyIndex = i + 1 by omega]
  dsimp only
  rw [hmoved, hchoose]
  exact edits_choose h hi

theorem edits_down : Edits (recallDown c) c (if ed.index = 0 then ed else ed.choose (ed.index - 1)) := by
  have hindex := h.index
  have hle := h.index_le
  rw [recallDown]
  by_cases hzero : ed.index = 0
  · rw [if_pos hzero, if_neg (by omega)]
    exact edits_self h hcolumn
  rw [if_neg hzero, if_pos (by omega), hindex]
  dsimp only
  obtain hone | ⟨i, hi⟩ : ed.index - 1 = 0 ∨ ∃ i, ed.index - 1 = i + 1 := by
    cases hk : ed.index - 1 with
    | zero => exact Or.inl rfl
    | succ i => exact Or.inr ⟨i, rfl⟩
  · rw [hone, if_neg (by simp)]
    exact edits_setCommand h (Nat.zero_le _) List.not_mem_nil (Nat.zero_le _)
  · rw [hi, if_pos (Nat.succ_ne_zero i)]
    exact edits_choose h (by omega)

end Keys

/-! ## Insertion -/

section Insertion

theorem exists_insertChar {c : ConsoleState} {ed : Editor} (h : Represents c ed) {ch : UInt8} (hch : ch ≠ 0)
    (hroom : c.commandLength < commandMax) : ∃ c', insertChar ch c = .ok c' ∧ Represents c' (ed.insert ch) ∧
      c'.shell = c.shell ∧ c'.cursor = c.cursor := by
  obtain ⟨before, after, lines, index⟩ := ed
  have hcursor := h.cursor
  have hlength := h.length
  simp only [Editor.line, List.length_append] at hcursor hlength
  have hroom' : before.length + after.length + 1 < commandMax + 1 := by omega
  obtain ⟨b, b', b'', hb, hb', hb'', hholds⟩ := insert_holds h.command.1 hroom' Crash.command ch
  have hline : Terminated b'' (before ++ [ch] ++ after) := by
    rw [List.append_assoc]
    refine ⟨hholds, fun h0 => ?_⟩
    rcases List.mem_append.mp h0 with h0 | h0
    · exact h.command.2 (List.mem_append_left _ h0)
    · rcases List.mem_cons.mp h0 with h0 | h0
      · exact hch h0.symm
      · exact h.command.2 (List.mem_append_right _ h0)
  have hrep := h.withLine hline
  rw [insertChar, hcursor, hlength, hb, ok_bind, hb', ok_bind, hb'', ok_bind]
  refine ⟨_, rfl, ?_, rfl, rfl⟩
  rw [Editor.insert, if_pos (by simpa [Editor.line, hlength] using hroom)]
  simp only [List.length_append, List.length_singleton] at hrep
  rw [Nat.add_right_comm]
  exact hrep

/-- There is no room for more. -/
theorem insert_full {ed : Editor} (hfull : ¬ ed.line.length < commandMax) (ch : UInt8) : ed.insert ch = ed := by
  rw [Editor.insert, if_neg hfull]

theorem insertSpaces_full {ed : Editor} (hfull : ¬ ed.line.length < commandMax) (spaces : Nat) :
    ed.insertSpaces spaces = ed := by
  induction spaces with
  | zero => rfl
  | succ spaces ih => rw [Editor.insertSpaces, insert_full hfull, ih]

theorem exists_insertSpaces (spaces : Nat) : ∀ {c : ConsoleState} {ed : Editor}, Represents c ed →
    ∃ c', insertSpaces spaces c = .ok c' ∧ Represents c' (ed.insertSpaces spaces) ∧
      c'.shell = c.shell ∧ c'.cursor = c.cursor := by
  induction spaces with
  | zero => exact fun h => ⟨_, rfl, h, rfl, rfl⟩
  | succ spaces ih =>
    intro c ed h
    rw [insertSpaces]
    by_cases hroom : c.commandLength < commandMax
    · obtain ⟨c', hc', hrep, hshell, hcursor⟩ := exists_insertChar h (show space ≠ 0 by decide) hroom
      obtain ⟨c'', hc'', hrep', hshell', hcursor'⟩ := ih hrep
      rw [if_pos hroom, hc', ok_bind]
      exact ⟨c'', hc'', hrep', hshell'.trans hshell, hcursor'.trans hcursor⟩
    · rw [if_neg hroom, insertSpaces_full (h.length ▸ hroom)]
      exact ⟨c, rfl, h, rfl, rfl⟩

end Insertion

/-! ## Every key -/

section Every

variable {c : ConsoleState} {ed : Editor} (h : Represents c ed)
  (hcolumn : c.cursor.column = consolePromptColumns c.shell.cwd + c.commandCursor)
include h hcolumn

theorem edits_editLine {event : Event} (hpressed : event.pressed ≠ 0) :
    Edits (editLine event c) c (ed.key (consolePromptColumns c.shell.cwd) event) := by
  rw [editLine, Editor.key, if_neg hpressed]
  by_cases hkey : event.key = .backspace
  · rw [if_pos hkey, if_pos hkey]
    exact edits_backspace h hcolumn
  rw [if_neg hkey, if_neg hkey]
  by_cases hkey : event.key = .tab
  · obtain ⟨c', hc', hrep, hshell, hcursor⟩ := exists_insertSpaces (tabSpaces c.cursor.column) h
    rw [if_pos hkey, if_pos hkey, hc', ok_bind, ← h.cursor, ← hcolumn]
    exact edits_redraw hrep hshell hcursor
  rw [if_neg hkey, if_neg hkey]
  by_cases hkey : event.key = .left
  · rw [if_pos hkey, if_pos hkey]
    exact edits_left h hcolumn
  rw [if_neg hkey, if_neg hkey]
  by_cases hkey : event.key = .right
  · rw [if_pos hkey, if_pos hkey]
    exact edits_right h hcolumn
  rw [if_neg hkey, if_neg hkey]
  by_cases hkey : event.key = .up
  · rw [if_pos hkey, if_pos hkey]
    exact edits_up h hcolumn
  rw [if_neg hkey, if_neg hkey]
  by_cases hkey : event.key = .down
  · rw [if_pos hkey, if_pos hkey]
    exact edits_down h hcolumn
  rw [if_neg hkey, if_neg hkey]
  by_cases hkey : event.modifiers &&& modCtrl ≠ 0 ∧ event.key = .a
  · rw [if_pos hkey, if_pos hkey]
    exact edits_redraw (h.withCursor (List.nil_append _)) rfl rfl
  rw [if_neg hkey, if_neg hkey]
  by_cases hkey : event.modifiers &&& modCtrl ≠ 0 ∧ event.key = .e
  · have hend := h.withCursor (List.append_nil ed.line)
    rw [← h.length] at hend
    rw [if_pos hkey, if_pos hkey]
    exact edits_redraw hend rfl rfl
  rw [if_neg hkey, if_neg hkey]
  by_cases hkey : event.modifiers &&& modCtrl ≠ 0 ∧ event.key = .u
  · obtain ⟨b, hb, hrep⟩ := h.cut (List.nil_append ed.line)
    rw [if_pos hkey, if_pos hkey, show (0 : Nat) = ([] : List UInt8).length from rfl, hb, ok_bind]
    exact edits_redraw hrep rfl rfl
  rw [if_neg hkey, if_neg hkey]
  by_cases hkey : event.modifiers &&& modCtrl ≠ 0 ∧ event.key = .k
  · obtain ⟨b, hb, hrep⟩ := h.cut (show ed.before ++ ed.after = ed.line from rfl)
    rw [if_pos hkey, if_pos hkey, h.cursor, hb, ok_bind, ← h.cursor]
    rw [← h.cursor] at hrep
    exact edits_redraw hrep rfl rfl
  rw [if_neg hkey, if_neg hkey]
  by_cases hchar : 32 ≤ event.character ∧ event.character ≤ 126
  · rw [if_pos hchar]
    by_cases hroom : c.commandLength < commandMax
    · have hch : event.character ≠ 0 := by
        intro h0
        rw [h0] at hchar
        exact absurd hchar.1 (by decide)
      obtain ⟨c', hc', hrep, hshell, hcursor⟩ := exists_insertChar h hch hroom
      rw [if_pos ⟨hchar.1, hchar.2, hroom⟩, hc', ok_bind]
      exact edits_redraw hrep hshell hcursor
    · rw [if_neg fun hall => hroom hall.2.2, insert_full (h.length ▸ hroom)]
      exact edits_self h hcolumn
  · rw [if_neg hchar, if_neg fun hall => hchar ⟨hall.1, hall.2.1⟩]
    exact edits_self h hcolumn

end Every

/-! ## Enter -/

section Enter

variable {c : ConsoleState} {ed : Editor} (h : Represents c ed)
include h

/-- The copy of the line -/
theorem exists_copyLine (junk : Junk) : ∃ line, copyLine junk c = .ok line ∧ Terminated line ed.line := by
  obtain ⟨⟨hlen, rest, hrest⟩, hnul⟩ := h.command
  have hle := h.command.length_le
  have htake : c.command.take (c.commandLength + 1) = ed.line ++ [0] := by
    rw [hrest, h.length, List.take_append]
    simp
  have hlength : (ed.line ++ [0]).length ≤ junk.bytes.length := by
    rw [junk.length_eq, List.length_append, List.length_singleton]
    omega
  rw [copyLine, if_pos (by rw [hlen, h.length]; omega), htake, storeAll_eq _ hlength]
  refine ⟨_, rfl, ⟨?_, _, List.append_assoc _ _ _⟩, hnul⟩
  rw [List.length_append, List.length_drop, junk.length_eq]
  rw [junk.length_eq] at hlength
  omega

/-- The line is compared with the oldest one. -/
theorem repeats_eq (line : List UInt8) :
    repeats line c = .ok (decide (∃ last ∈ ed.lines.getLast?, consoleStreq last line)) := by
  have hcount := h.length_lines
  have hmax := h.count
  rw [repeats]
  split
  · rename_i hzero
    have hnil : ed.lines = [] := List.eq_nil_of_length_eq_zero (hcount.trans hzero)
    simp [hnil]
  · rename_i hpos
    have hlast : ed.lines.getLast? = ed.lines[c.historyCount - 1]? := by
      rw [List.getLast?_eq_getElem?, hcount]
    have hget : ed.lines[c.historyCount - 1]? = some ed.lines[c.historyCount - 1] :=
      List.getElem?_eq_getElem (by omega)
    obtain ⟨row, hrow, hterm⟩ := h.row hget
    have hload : load Crash.history c.history (c.historyCount - 1) = .ok row := by
      rw [load, hrow]
    rw [Nat.mod_eq_of_lt (by omega), hload, ok_bind, hterm.cString, ok_bind, hlast, hget]
    simp

/-- A line stored in front of the others -/
theorem exists_push {line text : List UInt8} (hline : Terminated line text) {j : Nat} (hj : j < historyMax)
    (hcount : j ≤ c.historyCount) : ∃ rows rows', shiftUp Crash.history 0 j c.history = .ok rows ∧
      store Crash.history rows 0 line = .ok rows' ∧ rows'.length = historyMax ∧
      List.Forall₂ Terminated (rows'.take (j + 1)) (text :: ed.lines.take j) := by
  have hrows := h.rows
  have hj' : j < c.history.length := by omega
  have hlength : (c.history.take j).length = j := by
    rw [List.length_take]
    omega
  have hsplit : c.history = c.history.take j ++ c.history[j] :: c.history.drop (j + 1) := by
    rw [← List.drop_eq_getElem_cons hj', List.take_append_drop]
  have hshift := shiftUp_append Crash.history (c.history.take j) [] (c.history.drop (j + 1)) c.history[j]
  rw [List.nil_append, ← hsplit, List.length_nil, Nat.zero_add, hlength] at hshift
  refine ⟨_, line :: (c.history.take j ++ c.history.drop (j + 1)), hshift, store_append _ [] _ _ _, ?_, ?_⟩
  · rw [List.length_cons, List.length_append, hlength, List.length_drop]
    omega
  · rw [List.take_succ_cons, List.take_append_of_le_length hlength.ge, List.take_of_length_le hlength.le]
    have htake := List.forall₂_take j h.lines
    rw [List.take_take, Nat.min_eq_left hcount] at htake
    exact .cons hline htake

theorem exists_addHistory {line : List UInt8} (hline : Terminated line ed.line) :
    ∃ history historyCount, consoleAddHistory line c = .ok { c with history, historyCount } ∧
      history.length = historyMax ∧ historyCount ≤ historyMax ∧
      List.Forall₂ Terminated (history.take historyCount) (addHistory ed.line ed.lines) := by
  rw [consoleAddHistory, hline.cString, ok_bind, addHistory]
  by_cases hnil : ed.line = []
  · rw [if_pos hnil, if_pos hnil]
    exact ⟨_, _, rfl, h.rows, h.count, h.lines⟩
  rw [if_neg hnil, if_neg hnil, repeats_eq h, ok_bind]
  by_cases hlast : ∃ last ∈ ed.lines.getLast?, consoleStreq last ed.line
  · rw [if_pos hlast, if_pos (decide_eq_true hlast)]
    exact ⟨_, _, rfl, h.rows, h.count, h.lines⟩
  rw [if_neg hlast, if_neg (by simpa using hlast)]
  have hcount := h.count
  have hlength := h.length_lines
  -- one row more, or the last one is given up
  obtain ⟨j, hnext, hj, hle, htake⟩ : ∃ j,
      (if c.historyCount < historyMax then c.historyCount + 1 else c.historyCount) = j + 1 ∧ j < historyMax ∧
      j ≤ c.historyCount ∧ ed.lines.take j = ed.lines.take (historyMax - 1) := by
    by_cases hroom : c.historyCount < historyMax
    · refine ⟨c.historyCount, if_pos hroom, hroom, le_rfl, ?_⟩
      rw [List.take_of_length_le (by omega), List.take_of_length_le (by omega)]
    · have hfull : c.historyCount = historyMax := by omega
      refine ⟨historyMax - 1, ?_, by decide, by omega, rfl⟩
      rw [if_neg hroom, hfull]
      rfl
  obtain ⟨rows, rows', hrows, hrows', hlen, hforall⟩ := exists_push h hline hj hle
  rw [hnext]
  dsimp only
  rw [Nat.add_sub_cancel, hrows, ok_bind, hrows', ok_bind]
  refine ⟨rows', j + 1, rfl, hlen, hj, ?_⟩
  rw [show (ed.line :: ed.lines).take historyMax = ed.line :: ed.lines.take (historyMax - 1) from rfl, ← htake]
  exact hforall

theorem historyLines_eq : historyLines c = .ok ed.lines := by
  rw [historyLines]
  have hlines := h.lines
  generalize c.history.take c.historyCount = rows at hlines
  generalize ed.lines = lines at hlines
  induction hlines with
  | nil => rfl
  | cons hrow _ ih => rw [List.mapM_cons, hrow.cString, ok_bind, ih, ok_bind]; rfl

end Enter

/-- `console_prompt` leaves an empty line, with the cursor behind the prompt. -/
theorem exists_consolePrompt {c : ConsoleState} {lines : List (List UInt8)}
    (hcommand : c.command.length = commandMax + 1) (hrows : c.history.length = historyMax)
    (hcount : c.historyCount ≤ historyMax) (hlines : List.Forall₂ Terminated (c.history.take c.historyCount) lines)
    (hindex : c.historyIndex = 0) (hscreen : c.cursor.InRows) : ∃ c', consolePrompt c = .ok c' ∧
      Represents c' ⟨[], [], lines, 0⟩ ∧ c'.shell = c.shell ∧
      c'.cursor.column = consolePromptColumns c.shell.cwd ∧ c'.cursor.columns = c.cursor.columns ∧
      c'.cursor.InRows := by
  obtain ⟨b, b', hb, hb', hholds⟩ :=
    overwrite_holds (z := (0 : UInt8)) hcommand (show [].length < commandMax + 1 by decide) Crash.command
  obtain rfl : c.command = b := Except.ok.inj hb
  have hstore : store Crash.command c.command 0 0 = .ok b' := hb'
  have hin := hscreen.puts (text "MinOS:" ++ (c.shell.cwd ++ text "> "))
  rw [consolePrompt, hstore, ok_bind]
  refine ⟨_, rfl, ?_, rfl, rfl, Cursor.puts_columns _ _, hin.columns, hin.row⟩
  exact ⟨⟨hholds, List.not_mem_nil⟩, rfl, rfl, hrows, hcount, hlines, hindex, Nat.zero_le _⟩

/-- What a console keeps beside the line: the cursor stands behind the prompt and the text before it. -/
structure ConsoleState.Settled (c : ConsoleState) : Prop where
  column : c.cursor.column = consolePromptColumns c.shell.cwd + c.commandCursor
  screen : c.cursor.InRows

/-- An editor with an empty line that remembers the line it had -/
def Editor.enter (ed : Editor) : Editor := ⟨[], [], addHistory ed.line ed.lines, 0⟩

/-- `console_command` up to the call of the command -/
theorem consoleCommand_eq {c : ConsoleState} {ed : Editor} (h : Represents c ed) (env : Env) (junk : Junk) :
    ∃ history historyCount, history.length = historyMax ∧ historyCount ≤ historyMax ∧
      List.Forall₂ Terminated (history.take historyCount) (addHistory ed.line ed.lines) ∧
      consoleCommand env junk c =
        callShell (consoleCommandLine env (addHistory ed.line ed.lines) c.shell ed.line) >>= fun r =>
          consolePrompt { c with
            shell := r.2, cursor := r.1.foldl Cursor.effect (c.cursor.putc newline), history, historyCount,
            historyIndex := 0 } >>= fun c' => .ok (r.1, c') := by
  have hstore : store Crash.command c.command c.commandLength 0 = .ok c.command := by
    obtain ⟨⟨-, rest, hrest⟩, -⟩ := h.command
    rw [h.length, hrest, store_append]
  -- the state behind the line break
  have h₁ : Represents { c with cursor := c.cursor.putc newline } ed := h.withScreen _ _ _
  obtain ⟨line, hcopy, hline⟩ := exists_copyLine h₁ junk
  obtain ⟨history, historyCount, hadd, hrows, hcount, hlines⟩ := exists_addHistory h₁ hline
  -- the state with the line in the history
  have h₂ : Represents { c with cursor := c.cursor.putc newline, history, historyCount, historyIndex := 0 }
      { ed with lines := addHistory ed.line ed.lines, index := 0 } :=
    ⟨h.command, h.cursor, h.length, hrows, hcount, hlines, rfl, Nat.zero_le _⟩
  refine ⟨history, historyCount, hrows, hcount, hlines, ?_⟩
  rw [consoleCommand, hstore, ok_bind]
  dsimp only
  rw [hcopy, ok_bind, hadd, ok_bind, hline.cString, ok_bind, historyLines_eq h₂, ok_bind]

/-- A command that returns -/
theorem consoleCommand_returns {c : ConsoleState} {ed : Editor} (h : Represents c ed) (hscreen : c.cursor.InRows)
    {env : Env} {effects : List Effect} {shell : Shell}
    (hexec : consoleCommandLine env (addHistory ed.line ed.lines) c.shell ed.line = .ok (effects, shell))
    (junk : Junk) :
    ∃ c', consoleCommand env junk c = .ok (effects, c') ∧ Represents c' ed.enter ∧ c'.shell = shell ∧
      c'.cursor.column = consolePromptColumns shell.cwd ∧ c'.cursor.InRows ∧
      c'.cursor.columns = c.cursor.columns := by
  obtain ⟨history, historyCount, hrows, hcount, hlines, heq⟩ := consoleCommand_eq h env junk
  have hcall : callShell (consoleCommandLine env (addHistory ed.line ed.lines) c.shell ed.line) =
      .ok (effects, shell) := congrArg callShell hexec
  obtain ⟨c', hprompt, hrep, hsh, hcolumn, hcolumns, hin⟩ := exists_consolePrompt
    (c := { c with
      shell, cursor := effects.foldl Cursor.effect (c.cursor.putc newline), history, historyCount, historyIndex := 0 })
    h.command.1.1 hrows hcount hlines rfl ((hscreen.putc newline).effects effects)
  refine ⟨c', ?_, hrep, hsh, hcolumn, hin, ?_⟩
  · rw [heq, hcall, ok_bind, hprompt, ok_bind]
  · rw [hcolumns]
    simp

/-- What a command has done that returned -/
theorem of_consoleCommand {c c' : ConsoleState} {ed : Editor} (h : Represents c ed) (hscreen : c.cursor.InRows)
    {env : Env} {junk : Junk} {effects : List Effect} (hc' : consoleCommand env junk c = .ok (effects, c')) :
    Represents c' ed.enter ∧ c'.cursor.column = consolePromptColumns c'.shell.cwd ∧
      consoleCommandLine env (addHistory ed.line ed.lines) c.shell ed.line = .ok (effects, c'.shell) ∧
      c'.cursor.columns = c.cursor.columns ∧ c'.cursor.InRows := by
  cases hexec : consoleCommandLine env (addHistory ed.line ed.lines) c.shell ed.line with
  | error e =>
    obtain ⟨history, historyCount, -, -, -, heq⟩ := consoleCommand_eq h env junk
    rw [heq, hexec] at hc'
    cases hc'
  | ok r =>
    obtain ⟨c'', hc'', hrep, hshell, hcolumn, hin, hcolumns⟩ := consoleCommand_returns h hscreen hexec junk
    obtain ⟨rfl, rfl⟩ := Prod.mk.inj (Except.ok.inj (hc'.symm.trans hc''))
    refine ⟨hrep, ?_, ?_, hcolumns, hin⟩
    · rw [hshell]
      exact hcolumn
    · rw [hshell]

/-- A command that does not return has left an array of the filesystem, and none of the console's. -/
theorem error_of_consoleCommand {c : ConsoleState} {ed : Editor} (h : Represents c ed) (hscreen : c.cursor.InRows)
    {env : Env} {junk : Junk} {e : Crash} (he : consoleCommand env junk c = .error e) : ∃ fault, e = .vfs fault := by
  cases hexec : consoleCommandLine env (addHistory ed.line ed.lines) c.shell ed.line with
  | error fault =>
    obtain ⟨history, historyCount, -, -, -, heq⟩ := consoleCommand_eq h env junk
    rw [heq, hexec] at he
    exact ⟨fault, (Except.error.inj he).symm⟩
  | ok r =>
    obtain ⟨c', hc', -⟩ := consoleCommand_returns h hscreen hexec junk
    rw [hc'] at he
    cases he

/-! ## Events -/

theorem blink_eq (now frequency : UInt64) (c : ConsoleState) : ∃ cursorVisible cursorTick,
    blink now frequency c = { c with cursorVisible, cursorTick } := by
  unfold blink
  split_ifs <;> exact ⟨_, _, rfl⟩

section Events

variable {c : ConsoleState} {ed : Editor} (h : Represents c ed) (hs : c.Settled) {m : Moment}
include h hs

/-- An event that does not enter the line -/
theorem exists_event_key (hm : ¬ m.Enters) : ∃ c', consoleEvent m c = .ok ([], c') ∧
    Represents c' (ed.key (consolePromptColumns c.shell.cwd) m.event) ∧ c'.Settled ∧ c'.shell = c.shell ∧
    c'.cursor.columns = c.cursor.columns := by
  rw [consoleEvent]
  by_cases hpressed : m.event.pressed = 0
  · rw [if_pos hpressed, Editor.key, if_pos hpressed]
    exact ⟨c, rfl, h, hs, rfl, rfl⟩
  obtain ⟨c', hc', hrep, hshell, hcursor⟩ := edits_editLine h hs.column hpressed
  rw [if_neg hpressed, if_neg fun henter => hm ⟨hpressed, henter⟩, hc', ok_bind]
  refine ⟨_, rfl, hrep.withScreen _ _ _, ⟨?_, ?_⟩, hshell, ?_⟩
  · rw [hcursor, hshell, hrep.cursor]
  · rw [hcursor]
    exact ⟨hs.screen.columns, hs.screen.row⟩
  · rw [hcursor]

/-- The event that enters the line, if the command returns -/
theorem exists_event_enter (hm : m.Enters) {effects : List Effect} {shell : Shell}
    (hexec : consoleCommandLine m.env (addHistory ed.line ed.lines) c.shell ed.line = .ok (effects, shell)) :
    ∃ c', consoleEvent m c = .ok (effects, c') ∧ Represents c' ed.enter ∧ c'.Settled ∧ c'.shell = shell := by
  have h₁ : Represents { c with cursorVisible := false } ed := h.withScreen c.cursor c.cursorTick false
  obtain ⟨c', hc', hrep, hshell, hcolumn, hin, -⟩ := consoleCommand_returns h₁ hs.screen hexec m.junk
  rw [consoleEvent, if_neg hm.1, if_pos hm.2, hc', ok_bind]
  refine ⟨_, rfl, hrep.withScreen _ _ _, ⟨?_, hin⟩, hshell⟩
  show c'.cursor.column = consolePromptColumns c'.shell.cwd + c'.commandCursor
  rw [hcolumn, hshell, hrep.cursor]
  rfl

/-- What a key that was taken has done -/
theorem of_event_key {c' : ConsoleState} {effects : List Effect} (hm : ¬ m.Enters)
    (hevent : consoleEvent m c = .ok (effects, c')) :
    Represents c' (ed.key (consolePromptColumns c.shell.cwd) m.event) ∧ c'.Settled ∧ c'.shell = c.shell ∧
      c'.cursor.columns = c.cursor.columns := by
  obtain ⟨c'', hc'', hpost⟩ := exists_event_key h hs hm
  obtain ⟨-, rfl⟩ := Prod.mk.inj (Except.ok.inj (hevent.symm.trans hc''))
  exact hpost

/-- What entering the line has done -/
theorem of_event_enter {c' : ConsoleState} {effects : List Effect} (hm : m.Enters)
    (hevent : consoleEvent m c = .ok (effects, c')) : Represents c' ed.enter ∧ c'.Settled ∧
      consoleCommandLine m.env (addHistory ed.line ed.lines) c.shell ed.line = .ok (effects, c'.shell) ∧
      c'.cursor.columns = c.cursor.columns := by
  rw [consoleEvent, if_neg hm.1, if_pos hm.2] at hevent
  obtain ⟨⟨effects₁, c₁⟩, hc₁, hevent⟩ := bind_eq_ok_iff.mp hevent
  obtain ⟨rfl, rfl⟩ := Prod.mk.inj (Except.ok.inj hevent)
  obtain ⟨hrep, hcolumn, hexec, hcolumns, hin⟩ :=
    of_consoleCommand (h.withScreen c.cursor c.cursorTick false) hs.screen hc₁
  refine ⟨hrep.withScreen _ _ _, ⟨?_, hin⟩, hexec, hcolumns⟩
  rw [hcolumn, hrep.cursor]
  rfl

/-- No event leaves an array of the console, and none but Enter one of the filesystem. -/
theorem error_of_event {e : Crash} (he : consoleEvent m c = .error e) : m.Enters ∧ ∃ fault, e = .vfs fault := by
  by_cases hm : m.Enters
  · refine ⟨hm, ?_⟩
    rw [consoleEvent, if_neg hm.1, if_pos hm.2] at he
    cases hc' : consoleCommand m.env m.junk { c with cursorVisible := false } with
    | error e' =>
      rw [hc'] at he
      obtain rfl := Except.error.inj he
      exact error_of_consoleCommand (h.withScreen c.cursor c.cursorTick false) hs.screen hc'
    | ok r =>
      rw [hc'] at he
      cases he
  · obtain ⟨c', hc', -⟩ := exists_event_key h hs hm
    rw [hc'] at he
    cases he

omit hs in
theorem Represents.blink (now frequency : UInt64) : Represents (blink now frequency c) ed := by
  obtain ⟨cursorVisible, cursorTick, heq⟩ := blink_eq now frequency c
  rw [heq]
  exact h.withScreen _ _ _

omit h in
theorem ConsoleState.Settled.blink (now frequency : UInt64) : (blink now frequency c).Settled := by
  obtain ⟨cursorVisible, cursorTick, heq⟩ := blink_eq now frequency c
  rw [heq]
  exact ⟨hs.column, hs.screen⟩

end Events

/-! ## Runs -/

/-- The states of a console on a screen of this size, over any filesystem, between two events, with the lines entered
so far, newest first. Events come where `may` allows them, and their commands return; there is none after a `reboot`
or a `shutdown`. -/
inductive ConsoleRun (may : ConsoleState → Moment → Prop) (width height : Nat) (fs : State) :
    List (List UInt8) → ConsoleState → Prop
  | init {now : UInt64} {c : ConsoleState} (h : consoleInit width height now ⟨fs, [slash]⟩ = .ok c) :
      ConsoleRun may width height fs [] c
  | key {entered : List (List UInt8)} {c c' : ConsoleState} {m : Moment} {effects : List Effect}
      (h : ConsoleRun may width height fs entered c) (hmay : may c m) (hm : ¬ m.Enters)
      (hevent : consoleEvent m c = .ok (effects, c')) : ConsoleRun may width height fs entered c'
  | enter {entered : List (List UInt8)} {c c' : ConsoleState} {m : Moment} {effects : List Effect}
      (h : ConsoleRun may width height fs entered c) (hmay : may c m) (hm : m.Enters)
      (hevent : consoleEvent m c = .ok (effects, c')) (hhalt : .halt ∉ effects) :
      ConsoleRun may width height fs (c.line :: entered) c'
  | blink {entered : List (List UInt8)} {c : ConsoleState} (now frequency : UInt64)
      (h : ConsoleRun may width height fs entered c) : ConsoleRun may width height fs entered (blink now frequency c)

/-- A run without restrictions -/
abbrev AnyRun (width height : Nat) (fs : State) : List (List UInt8) → ConsoleState → Prop :=
  ConsoleRun (fun _ _ => True) width height fs

theorem consoleInit_returns (width height : Nat) (now : UInt64) (shell : Shell) : ∃ c,
    consoleInit width height now shell = .ok c ∧ Represents c ⟨[], [], [], 0⟩ ∧ c.shell = shell ∧
      c.cursor.column = consolePromptColumns shell.cwd ∧ c.cursor.columns = cellCount width 9 ∧ c.cursor.InRows :=
  exists_consolePrompt
    (c := {
      shell
      cursor := Cursor.init width height
      command := List.replicate (commandMax + 1) 0
      commandLength := 0
      commandCursor := 0
      cursorTick := now
      cursorVisible := true
      history := List.replicate historyMax (List.replicate (commandMax + 1) 0)
      historyCount := 0
      historyIndex := 0 })
    List.length_replicate List.length_replicate (Nat.zero_le _) .nil rfl (inRows_init width height)

theorem exists_consoleInit (width height : Nat) (now : UInt64) (fs : State) : ∃ c,
    consoleInit width height now ⟨fs, [slash]⟩ = .ok c ∧ Represents c ⟨[], [], [], 0⟩ ∧ c.Settled ∧
      c.shell = ⟨fs, [slash]⟩ ∧ c.cursor.columns = cellCount width 9 := by
  obtain ⟨c, hc, hrep, hshell, hcolumn, hcolumns, hin⟩ := consoleInit_returns width height now ⟨fs, [slash]⟩
  refine ⟨c, hc, hrep, ⟨?_, hin⟩, hshell, hcolumns⟩
  rw [hcolumn, hshell, hrep.cursor]
  rfl

section Runs

variable {may : ConsoleState → Moment → Prop} {width height : Nat} {fs : State} {entered : List (List UInt8)}
  {c : ConsoleState} (hr : ConsoleRun may width height fs entered c)
include hr

/-- **Every state of a run has an editor**, whatever is on the disk. -/
theorem ConsoleRun.represents : ∃ ed, Represents c ed ∧ c.Settled ∧ c.cursor.columns = cellCount width 9 := by
  induction hr with
  | init h =>
    rename_i now c
    obtain ⟨c', hc', hrep, hsettled, -, hcolumns⟩ := exists_consoleInit width height now fs
    obtain rfl := Except.ok.inj (h.symm.trans hc')
    exact ⟨_, hrep, hsettled, hcolumns⟩
  | key _ _ hm hevent ih =>
    obtain ⟨ed, hrep, hsettled, hcolumns⟩ := ih
    obtain ⟨hrep', hsettled', -, hcolumns'⟩ := of_event_key hrep hsettled hm hevent
    exact ⟨_, hrep', hsettled', hcolumns'.trans hcolumns⟩
  | enter _ _ hm hevent _ ih =>
    obtain ⟨ed, hrep, hsettled, hcolumns⟩ := ih
    obtain ⟨hrep', hsettled', -, hcolumns'⟩ := of_event_enter hrep hsettled hm hevent
    exact ⟨_, hrep', hsettled', hcolumns'.trans hcolumns⟩
  | blink now frequency _ ih =>
    obtain ⟨ed, hrep, hsettled, hcolumns⟩ := ih
    refine ⟨ed, hrep.blink now frequency, hsettled.blink now frequency, ?_⟩
    obtain ⟨cursorVisible, cursorTick, heq⟩ := blink_eq now frequency _
    rw [heq]
    exact hcolumns

/-- What the commands keep of the shell, a run keeps. -/
theorem ConsoleRun.shell_invariant {P : Shell → Prop} (hinit : P ⟨fs, [slash]⟩)
    (hline : ∀ {sh sh' : Shell} {line : Line} {env : Env} {lines : List (List UInt8)} {effects : List Effect},
      P sh → consoleCommandLine env lines sh line.chars = .ok (effects, sh') → P sh') : P c.shell := by
  induction hr with
  | init h =>
    rename_i now c
    obtain ⟨c', hc', -, -, hshell, -⟩ := exists_consoleInit width height now fs
    obtain rfl := Except.ok.inj (h.symm.trans hc')
    rw [hshell]
    exact hinit
  | key h _ hm hevent ih =>
    obtain ⟨ed, hrep, hsettled, -⟩ := h.represents
    obtain ⟨-, -, hshell, -⟩ := of_event_key hrep hsettled hm hevent
    rw [hshell]
    exact ih
  | enter h _ hm hevent _ ih =>
    obtain ⟨ed, hrep, hsettled, -⟩ := h.represents
    obtain ⟨-, -, hexec, -⟩ := of_event_enter hrep hsettled hm hevent
    let line : Line := ⟨ed.line, hrep.command.2, hrep.command.length_le⟩
    exact hline ih (show consoleCommandLine _ _ _ line.chars = _ from hexec)
  | blink now frequency _ ih =>
    obtain ⟨cursorVisible, cursorTick, heq⟩ := blink_eq now frequency _
    rw [heq]
    exact ih

/-- Over a well-formed filesystem the shell is ready for every command. -/
theorem ConsoleRun.ready (hfs : Inv fs) : Ready c.shell :=
  hr.shell_invariant ⟨hfs, [], canonical_nil, rfl⟩ fun h hexec => (changes_of_execute h hexec).2.ready h

end Runs

/-! ### One character and Enter -/

/-- A key that writes this character -/
structure Types (key : Key) (ch : UInt8) : Prop where
  key_notMem : key ∉ [.enter, .backspace, .tab, .left, .right, .up, .down]
  printable : 32 ≤ ch ∧ ch ≤ 126

theorem types_a : Types .a 97 := ⟨by decide, by decide⟩

theorem Types.not_enters {key : Key} {ch : UInt8} (h : Types key ch) : ¬ (press key ch).Enters :=
  fun henters => h.key_notMem (henters.2 ▸ List.mem_cons_self)

theorem Types.key_eq {key : Key} {ch : UInt8} (h : Types key ch) (prompt : Nat) (ed : Editor) :
    ed.key prompt (press key ch).event = ed.insert ch := by
  have hkey := h.key_notMem
  simp only [List.mem_cons, List.not_mem_nil, or_false, not_or] at hkey
  simp [Editor.key, press, hkey, h.printable]

section Single

variable {may : ConsoleState → Moment → Prop} {width height : Nat} {fs : State} {entered : List (List UInt8)}
  {c : ConsoleState} (hr : ConsoleRun may width height fs entered c) (hs : c.Settled)
include hr hs

/-- A run goes on with a character. -/
theorem exists_typed {ed : Editor} (hrep : Represents c ed) {key : Key} {ch : UInt8} (hkey : Types key ch)
    (hmay : may c (press key ch)) : ∃ c', ConsoleRun may width height fs entered c' ∧ c'.Settled ∧
      Represents c' (ed.insert ch) ∧ c'.shell = c.shell := by
  obtain ⟨c', hc', hrep', hsettled, hshell, -⟩ := exists_event_key hrep hs hkey.not_enters
  rw [hkey.key_eq] at hrep'
  exact ⟨c', .key hr hmay hkey.not_enters hc', hsettled, hrep', hshell⟩

/-- A run goes on with a line that is no command. -/
theorem exists_entered {ed : Editor} (hrep : Represents c ed) {name : List UInt8} {rest : List (List UInt8)}
    (hwords : consoleWords 8 ed.line = name :: rest) (hname : commandOf name = none)
    (hmay : may c (press .enter newline)) : ∃ c', ConsoleRun may width height fs (ed.line :: entered) c' ∧
      c'.Settled ∧ Represents c' ed.enter ∧ c'.shell = c.shell := by
  have hm : (press .enter newline).Enters := ⟨by decide, rfl⟩
  have hexec : consoleCommandLine (press .enter newline).env (addHistory ed.line ed.lines) c.shell ed.line =
      .ok (consolePuts (text "Unknown command. Type help.\n"), c.shell) := by
    rw [consoleCommandLine, hwords, consoleCommandWords, hname]
  obtain ⟨c', hc', hrep', hsettled, hshell⟩ := exists_event_enter hrep hs hm hexec
  have hrun := ConsoleRun.enter hr hmay hm hc' (by simp [consolePuts])
  rw [hrep.line_eq] at hrun
  exact ⟨c', hrun, hsettled, hrep', hshell⟩

end Single

/-! ### Sequences of keys -/

/-- An event that does not enter the line -/
abbrev Keystroke := { m : Moment // ¬ m.Enters }

/-- The console and a key -/
def keyStep (c : ConsoleState) (m : Keystroke) : Except Crash (List Effect × ConsoleState) := consoleEvent m.1 c

/-- The editor and a key: nothing is printed and no command is run -/
def Editor.step (prompt : Nat) (ed : Editor) (m : Keystroke) : List Effect × Editor := ([], ed.key prompt m.1.event)

/-- What the array, the length and the cursor are, whatever the line is -/
structure ConsoleState.LineFits (c : ConsoleState) : Prop where
  cursor_le : c.commandCursor ≤ c.commandLength
  length_le : c.commandLength ≤ commandMax
  terminator : c.command[c.commandLength]? = some 0
  nul_notMem : 0 ∉ c.line

theorem Represents.lineFits {c : ConsoleState} {ed : Editor} (h : Represents c ed) : c.LineFits := by
  have hcommand := h.command
  obtain ⟨⟨-, rest, hrest⟩, hnul⟩ := hcommand
  refine ⟨?_, ?_, ?_, ?_⟩
  · rw [h.cursor, h.length, Editor.line, List.length_append]
    exact Nat.le_add_right _ _
  · rw [h.length]
    exact h.command.length_le
  · rw [h.length, hrest]
    simp
  · rw [h.line_eq]
    exact hnul

/-- **The command line is that of the editor**, after every sequence of keys in every state of a run over any
filesystem. Whatever event comes, no access of the console's arrays is out of bounds; none of the filesystem's is
either if the console was started on a well-formed table. -/
theorem command_line {width height : Nat} {fs : State} {entered : List (List UInt8)} {c : ConsoleState}
    (hr : AnyRun width height fs entered c) :
    (∀ m e, consoleEvent m c = .error e → m.Enters ∧ ∃ fault, e = .vfs fault) ∧
    (Inv fs → ∀ m, ∃ effects c', consoleEvent m c = .ok (effects, c')) ∧
    ∃ ed, Represents c ed ∧ c.LineFits ∧
      ∀ keys, ∃ c', run keyStep c keys =
          .ok ((refRun (Editor.step (consolePromptColumns c.shell.cwd)) ed keys).1, c') ∧
        Represents c' (refRun (Editor.step (consolePromptColumns c.shell.cwd)) ed keys).2 ∧ c'.LineFits := by
  obtain ⟨ed, hrep, hsettled, -⟩ := hr.represents
  refine ⟨fun m e => error_of_event hrep hsettled, ?_, ed, hrep, hrep.lineFits, ?_⟩
  · intro hfs m
    by_cases hm : m.Enters
    · obtain ⟨effects, shell, hexec, -⟩ := execute_ok (hr.ready hfs)
        ⟨ed.line, hrep.command.2, hrep.command.length_le⟩ m.env (addHistory ed.line ed.lines)
      obtain ⟨c', hc', -⟩ := exists_event_enter hrep hsettled hm hexec
      exact ⟨effects, c', hc'⟩
    · obtain ⟨c', hc', -⟩ := exists_event_key hrep hsettled hm
      exact ⟨[], c', hc'⟩
  · intro keys
    -- the working directory, and with it the prompt, stays
    let Alike (c' : ConsoleState) (ed : Editor) : Prop := Represents c' ed ∧ c'.Settled ∧ c'.shell = c.shell
    have hstep : ∀ c₁ ed₁ m, Alike c₁ ed₁ → ∃ c₂,
        keyStep c₁ m = .ok ((Editor.step (consolePromptColumns c.shell.cwd) ed₁ m).1, c₂) ∧
          Alike c₂ (Editor.step (consolePromptColumns c.shell.cwd) ed₁ m).2 := by
      rintro c₁ ed₁ m ⟨h₁, hs₁, hshell₁⟩
      obtain ⟨c₂, hc₂, h₂, hs₂, hshell₂, -⟩ := exists_event_key h₁ hs₁ m.2
      rw [hshell₁] at h₂
      exact ⟨c₂, hc₂, h₂, hs₂, hshell₂.trans hshell₁⟩
    obtain ⟨c', hrun, hrep', -⟩ := run_simulates hstep keys c ed ⟨hrep, hsettled, rfl⟩
    exact ⟨c', hrun, hrep', hrep'.lineFits⟩

/-- After a line and on the second boot of a disk with a file on it -/
theorem command_line_second_boot : ∃ s c, Reachable (blankDisk 65536) s ∧ (mount s.drive).2.records = writtenTable ∧
    AnyRun 640 480 (mount s.drive).2 [text "a"] c ∧ (∀ m, ∃ effects c', consoleEvent m c = .ok (effects, c')) ∧
    ∃ ed, Represents c ed ∧ c.LineFits ∧ ∀ keys, ∃ c', run keyStep c keys =
          .ok ((refRun (Editor.step (consolePromptColumns c.shell.cwd)) ed keys).1, c') ∧
        Represents c' (refRun (Editor.step (consolePromptColumns c.shell.cwd)) ed keys).2 ∧ c'.LineFits := by
  obtain ⟨s, hs, hinv, hrec⟩ := exists_second_boot
  obtain ⟨c, hc, hrep, hsettled, -⟩ := exists_consoleInit 640 480 0 (mount s.drive).2
  obtain ⟨c₁, hr₁, hs₁, hrep₁, -⟩ :=
    exists_typed (.init hc : AnyRun 640 480 (mount s.drive).2 _ _) hsettled hrep types_a trivial
  obtain ⟨c₂, hr₂, -, -, -⟩ := exists_entered hr₁ hs₁ hrep₁
    (show consoleWords 8 _ = [[97]] by decide) (show commandOf [97] = none by decide) trivial
  obtain ⟨-, hevents, hkeys⟩ := command_line hr₂
  exact ⟨s, c₂, hs, hrec, hr₂, hevents hinv, hkeys⟩

end MinOS.Console
