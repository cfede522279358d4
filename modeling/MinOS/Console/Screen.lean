/-
# MinOS.Console.Screen — where the cursor is.

`console_putc` wraps, but `console_prompt` and `console_redraw_command` do not: they set the column to the length
of the prompt and of the text before the cursor, however wide the screen is. The row stays on the screen in every
run. The column does as long as the prompt and the text before the cursor fit into one row (`Fits`), and not a
step longer (`cursor_on_screen`).
-/
import MinOS.Console.Editor

namespace MinOS.Console

open MinOS.Vfs MinOS.Ata MinOS.Input Machine LineBuffer

/-! ## Where a line leads -/

/-- The working directory after a `cd`: the operand, if it is a directory -/
def cdDestination (sh : Shell) (argv : List (List UInt8)) : List UInt8 :=
  match vfsNormalize sh.cwd (argv.getD (operand argv) []) with
  | .ok (some path) => if vfsIsDirectory sh.fs path = .ok true then path else sh.cwd
  | _ => sh.cwd

/-- The working directory after a line -/
def destination (sh : Shell) (line : List UInt8) : List UInt8 :=
  match consoleWords 8 line with
  | [] => sh.cwd
  | name :: rest => if commandOf name = some .cd then cdDestination sh (name :: rest) else sh.cwd

/-- If it returns, the working directory is this one. -/
def Leads (cwd : List UInt8) (x : Except Fault (List Effect × Shell)) : Prop :=
  ∀ effects sh, x = .ok (effects, sh) → sh.cwd = cwd

theorem leads_ok {cwd : List UInt8} {effects : List Effect} {sh : Shell} (h : sh.cwd = cwd) :
    Leads cwd (.ok (effects, sh)) := by
  intro effects' sh' heq
  obtain ⟨-, rfl⟩ := Prod.mk.inj (Except.ok.inj heq)
  exact h

theorem leads_error (cwd : List UInt8) (e : Fault) : Leads cwd (.error e) := by
  intro effects sh heq
  cases heq

theorem leads_bind {α : Type} {cwd : List UInt8} {x : Except Fault α} {f : α → Except Fault (List Effect × Shell)}
    (h : ∀ a, Leads cwd (f a)) : Leads cwd (x >>= f) := by
  intro effects sh heq
  obtain ⟨a, -, ha⟩ := bind_eq_ok_iff.mp heq
  exact h a effects sh ha

section Commands

variable (sh : Shell) (argv : List (List UInt8))

theorem leads_onPath (op : State → List UInt8 → Except Fault (Int × State)) : Leads sh.cwd (onPath op sh argv) := by
  apply leads_bind
  rintro ⟨effects, _ | path⟩
  · exact leads_ok rfl
  · exact leads_bind fun _ => leads_ok rfl

theorem leads_onPaths (op : State → List UInt8 → List UInt8 → Except Fault (Int × State)) :
    Leads sh.cwd (onPaths op sh argv) := by
  unfold onPaths
  split
  · exact leads_ok rfl
  apply leads_bind
  rintro ⟨effects, _ | path⟩
  · exact leads_ok rfl
  apply leads_bind
  rintro ⟨effects', _ | path2⟩
  · exact leads_ok rfl
  · exact leads_bind fun _ => leads_ok rfl

theorem leads_onText (append : Bool) : Leads sh.cwd (onText append sh argv) := by
  unfold onText
  split
  · exact leads_ok rfl
  apply leads_bind
  rintro ⟨effects, _ | path⟩
  · exact leads_ok rfl
  · exact leads_bind fun _ => leads_ok rfl

theorem leads_concatenate : Leads sh.cwd (concatenate sh argv) := by
  apply leads_bind
  rintro ⟨effects, _ | path⟩
  · exact leads_ok rfl
  apply leads_bind
  rintro ⟨_ | data, fs⟩
  · exact leads_ok rfl
  · exact leads_ok rfl

theorem leads_list : Leads sh.cwd (list sh argv) := by
  apply leads_bind
  rintro ⟨effects, _ | path⟩
  · exact leads_ok rfl
  · exact leads_bind fun _ => leads_ok rfl

theorem leads_tree : Leads sh.cwd (tree sh argv) := by
  apply leads_bind
  rintro ⟨effects, _ | path⟩
  · exact leads_ok rfl
  apply leads_bind
  rintro (_ | stat)
  · exact leads_ok rfl
  dsimp only
  split <;> exact leads_bind fun _ => leads_ok rfl

theorem leads_search : Leads sh.cwd (search sh argv) := by
  apply leads_bind
  rintro ⟨effects, _ | path⟩
  · exact leads_ok rfl
  apply leads_bind
  rintro (_ | stat)
  · exact leads_ok rfl
  dsimp only
  split
  · exact leads_ok rfl
  · exact leads_bind fun _ => leads_ok rfl

/-- `cd` -/
theorem leads_changeDirectory (name : List UInt8) (rest : List (List UInt8)) :
    Leads (cdDestination sh (name :: rest)) (changeDirectory sh (name :: rest)) := by
  have hoperand : operand (name :: rest) < (name :: rest).length := by
    unfold operand
    split <;> simp_all
  have harg : (name :: rest)[operand (name :: rest)]? = some ((name :: rest).getD (operand (name :: rest)) []) := by
    rw [List.getElem?_eq_getElem hoperand, List.getD_eq_getElem _ _ hoperand]
  rw [cdDestination, changeDirectory, consoleArg, harg]
  dsimp only
  cases hnorm : vfsNormalize sh.cwd ((name :: rest).getD (operand (name :: rest)) []) with
  | error e => exact leads_error _ e
  | ok path =>
    cases path with
    | none => exact leads_ok rfl
    | some path =>
      rw [ok_bind, ok_bind]
      dsimp only
      cases hdir : vfsIsDirectory sh.fs path with
      | error e => exact leads_error _ e
      | ok isDirectory =>
        rw [ok_bind]
        cases isDirectory with
        | true => exact leads_ok rfl
        | false => exact leads_ok rfl

end Commands

/-- **Where every line leads** -/
theorem leads_execute (env : Env) (lines : List (List UInt8)) (sh : Shell) (line : List UInt8) :
    Leads (destination sh line) (consoleCommandLine env lines sh line) := by
  rw [consoleCommandLine, destination]
  cases consoleWords 8 line with
  | nil => exact leads_ok rfl
  | cons name rest =>
    dsimp only
    by_cases hcd : commandOf name = some .cd
    · rw [if_pos hcd, consoleCommandWords, hcd]
      exact leads_changeDirectory sh name rest
    rw [if_neg hcd, consoleCommandWords]
    cases hname : commandOf name with
    | none => exact leads_ok rfl
    | some c =>
      cases c with
      | cd => exact absurd hname hcd
      | help | clear | about | mem | ticks | uptime => exact leads_ok rfl
      | reboot | shutdown | pwd | df | echo | history => exact leads_ok rfl
      | ls => exact leads_list sh _
      | mkdir | rmdir | touch | rm => exact leads_onPath sh _ _
      | cat => exact leads_concatenate sh _
      | write | append => exact leads_onText sh _ _
      | cp | mv => exact leads_onPaths sh _ _
      | tree => exact leads_tree sh _
      | find => exact leads_search sh _

/-- A line leads to the working directory or to an output of `vfs_normalize`. -/
theorem destination_eq_or (sh : Shell) (line : List UInt8) : destination sh line = sh.cwd ∨
    ∃ path, vfsNormalize sh.cwd path = .ok (some (destination sh line)) := by
  unfold destination
  split
  · exact Or.inl rfl
  split
  · unfold cdDestination
    split
    · rename_i hpath
      split
      · exact Or.inr ⟨_, hpath⟩
      · exact Or.inl rfl
    · exact Or.inl rfl
  · exact Or.inl rfl

/-- No command leads to a directory with a longer path. -/
theorem length_destination_le {sh : Shell} (h : sh.cwd.length ≤ vfsPathMax) (line : List UInt8) :
    (destination sh line).length ≤ vfsPathMax := by
  obtain heq | ⟨path, hpath⟩ := destination_eq_or sh line
  · rw [heq]
    exact h
  · exact (of_vfsNormalize hpath).2

theorem destination_ne_nil {sh : Shell} (h : sh.cwd ≠ []) (line : List UInt8) : destination sh line ≠ [] := by
  obtain heq | ⟨path, hpath⟩ := destination_eq_or sh line
  · rw [heq]
    exact h
  · exact (of_vfsNormalize hpath).1

/-! ## The cursor and the editor -/

/-- The editor a state is in -/
def ConsoleState.editor (c : ConsoleState) : Editor where
  before := c.line.take c.commandCursor
  after := c.line.drop c.commandCursor
  lines := (historyLines c).toOption.getD []
  index := c.historyIndex

theorem Represents.editor_eq {c : ConsoleState} {ed : Editor} (h : Represents c ed) : c.editor = ed := by
  rw [ConsoleState.editor, h.line_eq, Editor.line, h.cursor, List.take_left, List.drop_left, historyLines_eq h,
    h.index]
  rfl

/-- The step leaves a prompt and a text before the cursor that fit into a row: after a key that of the editor, after
a line an empty one behind the prompt of the directory it leads to. -/
def Fits (columns : Nat) (c : ConsoleState) (m : Moment) : Prop :=
  if m.Enters then consolePromptColumns (destination c.shell c.editor.line) ≤ columns
  else consolePromptColumns c.shell.cwd +
    (c.editor.key (consolePromptColumns c.shell.cwd) m.event).before.length ≤ columns

/-- The cursor is in a row of the screen, and at most one place behind the last cell. -/
structure Cursor.OnScreen (k : Cursor) : Prop where
  row : k.row < k.rows
  column : k.column ≤ k.columns

theorem ConsoleState.Settled.onScreen_iff {c : ConsoleState} (hs : c.Settled) :
    c.cursor.OnScreen ↔ consolePromptColumns c.shell.cwd + c.commandCursor ≤ c.cursor.columns := by
  rw [← hs.column]
  exact ⟨fun h => h.column, fun h => ⟨hs.screen.row, h⟩⟩

/-- **One step** -/
theorem onScreen_step_iff {c c' : ConsoleState} {ed : Editor} (h : Represents c ed) (hs : c.Settled) {m : Moment}
    {effects : List Effect} (hevent : consoleEvent m c = .ok (effects, c')) :
    c'.cursor.OnScreen ↔ Fits c.cursor.columns c m := by
  rw [Fits, h.editor_eq]
  split
  · rename_i hm
    obtain ⟨hrep, hsettled, hexec, hcolumns⟩ := of_event_enter h hs hm hevent
    rw [hsettled.onScreen_iff, hcolumns, hrep.cursor, leads_execute _ _ _ _ _ _ hexec]
    rfl
  · rename_i hm
    obtain ⟨hrep, hsettled, hshell, hcolumns⟩ := of_event_key h hs hm hevent
    rw [hsettled.onScreen_iff, hcolumns, hrep.cursor, hshell]

/-! ## Runs -/

/-- The prompt of the root fits. -/
theorem prompt_le_cellCount_iff (width : Nat) : 9 ≤ cellCount width 9 ↔ 97 ≤ width := by
  unfold cellCount
  split <;> omega

section Runs

variable {may : ConsoleState → Moment → Prop} {width height : Nat} {fs : State} {entered : List (List UInt8)}
  {c : ConsoleState}

/-- The working directory has a path in every run, whatever is on the disk. -/
theorem ConsoleRun.cwd_ne_nil (hr : ConsoleRun may width height fs entered c) : c.shell.cwd ≠ [] := by
  apply hr.shell_invariant (P := fun sh => sh.cwd ≠ []) (List.cons_ne_nil _ _)
  intro sh sh' line env lines effects hne hexec
  rw [leads_execute _ _ _ _ _ _ hexec]
  exact destination_ne_nil hne _

/-- No prompt is shorter than that of the root. -/
theorem ConsoleRun.le_consolePromptColumns (hr : ConsoleRun may width height fs entered c) :
    9 ≤ consolePromptColumns c.shell.cwd := by
  have := List.length_pos_iff.mpr hr.cwd_ne_nil
  unfold consolePromptColumns
  omega

theorem ConsoleRun.onScreen (hwidth : 97 ≤ width)
    (hr : ConsoleRun (Fits (cellCount width 9)) width height fs entered c) : c.cursor.OnScreen := by
  induction hr with
  | init h =>
    rename_i now c
    obtain ⟨c', hc', hrep, hsettled, hshell, hcolumns⟩ := exists_consoleInit width height now fs
    obtain rfl := Except.ok.inj (h.symm.trans hc')
    rw [hsettled.onScreen_iff, hcolumns, hshell, hrep.cursor]
    exact (prompt_le_cellCount_iff width).mpr hwidth
  | key h hmay _ hevent _ | enter h hmay _ hevent _ _ =>
    obtain ⟨ed, hrep, hsettled, hcolumns⟩ := h.represents
    rw [onScreen_step_iff hrep hsettled hevent, hcolumns]
    exact hmay
  | blink now frequency _ ih =>
    obtain ⟨cursorVisible, cursorTick, heq⟩ := blink_eq now frequency _
    rw [heq]
    exact ih

/-- **The cursor stays on the screen** in every run over any filesystem whose steps leave a prompt and a text
before the cursor that fit into a row, if the prompt at the start does, and any other step takes it off the screen.
The row stays in any case. -/
theorem cursor_on_screen (hr : ConsoleRun (Fits (cellCount width 9)) width height fs entered c) :
    c.cursor.row < c.cursor.rows ∧ (c.cursor.OnScreen ↔ 97 ≤ width) ∧
      ∀ {m effects c'}, consoleEvent m c = .ok (effects, c') → c'.cursor.row < c'.cursor.rows ∧
        (c'.cursor.OnScreen ↔ Fits (cellCount width 9) c m) := by
  obtain ⟨ed, hrep, hsettled, hcolumns⟩ := hr.represents
  refine ⟨hsettled.screen.row, ⟨?_, fun hwidth => hr.onScreen hwidth⟩, ?_⟩
  · intro hon
    rw [hsettled.onScreen_iff, hcolumns] at hon
    have := hr.le_consolePromptColumns
    exact (prompt_le_cellCount_iff width).mp (by omega)
  · intro m effects c' hevent
    rw [onScreen_step_iff hrep hsettled hevent, hcolumns]
    refine ⟨?_, Iff.rfl⟩
    by_cases hm : m.Enters
    · exact (of_event_enter hrep hsettled hm hevent).2.1.screen.row
    · exact (of_event_key hrep hsettled hm hevent).2.1.screen.row

end Runs

/-- On the second boot of a disk with a file on it -/
theorem cursor_on_screen_a : ∃ s c, Reachable (blankDisk 65536) s ∧ (mount s.drive).2.records = writtenTable ∧
    ConsoleRun (Fits 69) 640 480 (mount s.drive).2 [] c ∧ c.line = text "a" ∧ c.cursor.OnScreen := by
  obtain ⟨s, hs, -, hrec⟩ := exists_second_boot
  obtain ⟨c, hc, hrep, hsettled, hshell, -⟩ := exists_consoleInit 640 480 0 (mount s.drive).2
  have hfits : Fits 69 c (press .a 97) := by
    rw [Fits, if_neg types_a.not_enters, hrep.editor_eq, hshell, types_a.key_eq]
    show 10 ≤ 69
    decide
  obtain ⟨c', hr, -, hrep', -⟩ :=
    exists_typed (.init hc : ConsoleRun (Fits 69) 640 480 _ _ c) hsettled hrep types_a hfits
  have hrun : ConsoleRun (Fits (cellCount 640 9)) 640 480 (mount s.drive).2 [] c' := hr
  exact ⟨s, c', hs, hrec, hr, hrep'.line_eq, (cursor_on_screen hrun).2.1.mpr (by decide)⟩

/-- Nothing keeps a line from growing beyond the end of the row. -/
theorem exists_typed_replicate (fs : State) {n : Nat} (hn : n ≤ commandMax) : ∃ c, AnyRun 640 480 fs [] c ∧
    c.Settled ∧ Represents c ⟨List.replicate n 97, [], [], 0⟩ ∧ c.shell.cwd = [slash] := by
  induction n with
  | zero =>
    obtain ⟨c, hc, hrep, hsettled, hshell, -⟩ := exists_consoleInit 640 480 0 fs
    exact ⟨c, .init hc, hsettled, hrep, by rw [hshell]⟩
  | succ n ih =>
    obtain ⟨c, hr, hsettled, hrep, hcwd⟩ := ih (Nat.le_of_succ_le hn)
    obtain ⟨c', hr', hsettled', hrep', hshell⟩ := exists_typed hr hsettled hrep types_a trivial
    have hroom : (⟨List.replicate n 97, [], [], 0⟩ : Editor).line.length < commandMax := by
      simpa [Editor.line] using Nat.lt_of_succ_le hn
    rw [Editor.insert, if_pos hroom, ← List.replicate_succ'] at hrep'
    exact ⟨c', hr', hsettled', hrep', by rw [hshell, hcwd]⟩

/-- After 61 characters on a screen of 69 columns the cursor is in column 70. -/
theorem cursor_leaves_screen : ∃ c, AnyRun 640 480 (mount (blankDisk 65536)).2 [] c ∧ c.cursor.columns = 69 ∧
    c.cursor.column = 70 ∧ ¬ c.cursor.OnScreen := by
  obtain ⟨c, hr, hsettled, hrep, hcwd⟩ :=
    exists_typed_replicate (mount (blankDisk 65536)).2 (show 61 ≤ commandMax by decide)
  obtain ⟨-, -, -, hcolumns⟩ := hr.represents
  have hcolumn : c.cursor.column = 70 := by
    rw [hsettled.column, hrep.cursor, hcwd]
    rfl
  refine ⟨c, hr, hcolumns, hcolumn, fun hon => ?_⟩
  have := hon.column
  rw [hcolumns, hcolumn] at this
  exact absurd this (by decide)

end MinOS.Console
