/-
# MinOS.Console.Poll — `console_poll`: keys, the command line and the history.

Arrays are lists with a bound check at every access (`MinOS.Lib.LineBuffer`). What is drawn is left out here, except
for the cursor (`MinOS.Console.Drawing` adds it); serial output is left out.
-/
import MinOS.Console.Session
import MinOS.Console.Terminal
import MinOS.Input
import MinOS.Lib.LineBuffer

namespace MinOS.Console

open MinOS.Vfs MinOS.Ata MinOS.Input Machine LineBuffer

/-! ## The state -/

/-- What the console must not do -/
inductive Crash
  | vfs (fault : Fault)
  /-- `command[i]` or `line[i]` with `i` above 127 -/
  | command
  /-- a row of `history` that is not there, or a string read past its end -/
  | history
  deriving DecidableEq, Repr

/-- `HISTORY_MAX` -/
def historyMax : Nat := 16

/-- The statics of `console.c` -/
structure ConsoleState where
  shell : Shell
  cursor : Cursor
  command : List UInt8
  commandLength : Nat
  commandCursor : Nat
  cursorTick : UInt64
  cursorVisible : Bool
  history : List (List UInt8)
  historyCount : Nat
  historyIndex : Nat

/-- The line in `command` -/
def ConsoleState.line (c : ConsoleState) : List UInt8 := c.command.take c.commandLength

/-- What an array is before it is written -/
structure Junk where
  bytes : List UInt8
  length_eq : bytes.length = commandMax + 1

/-- The characters of a string in an array -/
def cString (array : List UInt8) : Except Crash (List UInt8) :=
  if 0 ∈ array then .ok (array.takeWhile (· ≠ 0)) else .error .history

/-! ## Functions of `console.c` -/

/-- `console_prompt_columns` -/
def consolePromptColumns (cwd : List UInt8) : Nat := 8 + cwd.length

/-- `console_redraw_command`: where the cursor is afterwards -/
def consoleRedrawCommand (c : ConsoleState) : ConsoleState :=
  { c with cursor := { c.cursor with column := consolePromptColumns c.shell.cwd + c.commandCursor } }

/-- `console_set_command` -/
def consoleSetCommand (text : List UInt8) (c : ConsoleState) : Except Crash ConsoleState := do
  let text := text.take commandMax
  let command ← storeAll .command text 0 c.command
  let command ← store .command command text.length 0
  .ok (consoleRedrawCommand { c with command, commandLength := text.length, commandCursor := text.length })

/-- `console_prompt` -/
def consolePrompt (c : ConsoleState) : Except Crash ConsoleState := do
  let cursor := c.cursor.puts (text "MinOS:" ++ (c.shell.cwd ++ text "> "))
  let command ← store .command c.command 0 0
  .ok { c with
    cursor := { cursor with column := consolePromptColumns c.shell.cwd }
    command, commandLength := 0, commandCursor := 0 }

/-- `history_count && console_streq(history[(history_count - 1U) % HISTORY_MAX], line)` -/
def repeats (entered : List UInt8) (c : ConsoleState) : Except Crash Bool :=
  if c.historyCount = 0 then .ok false
  else do
    let last ← load .history c.history ((c.historyCount - 1) % historyMax)
    .ok (consoleStreq (← cString last) entered)

/-- `console_add_history`. In the loop the indices are below 16, so that the reductions modulo 16 do nothing. -/
def consoleAddHistory (line : List UInt8) (c : ConsoleState) : Except Crash ConsoleState := do
  let entered ← cString line
  if entered = [] then .ok c
  else do
    if ← repeats entered c then .ok c
    else do
      let historyCount := if c.historyCount < historyMax then c.historyCount + 1 else c.historyCount
      let history ← shiftUp .history 0 (historyCount - 1) c.history
      let history ← store .history history 0 line
      .ok { c with history, historyCount }

/-- `for (i = 0; i <= command_length; ++i) line[i] = command[i];` -/
def copyLine (junk : Junk) (c : ConsoleState) : Except Crash (List UInt8) :=
  if c.commandLength < c.command.length then
    storeAll .command (c.command.take (c.commandLength + 1)) 0 junk.bytes
  else .error .command

/-- The lines `history` prints -/
def historyLines (c : ConsoleState) : Except Crash (List (List UInt8)) := (c.history.take c.historyCount).mapM cString

/-- A call of the shell -/
def callShell (x : Except Fault (List Effect × Shell)) : Except Crash (List Effect × Shell) :=
  match x with
  | .ok a => .ok a
  | .error e => .error (.vfs e)

/-- `console_command` -/
def consoleCommand (env : Env) (junk : Junk) (c : ConsoleState) : Except Crash (List Effect × ConsoleState) := do
  let command ← store .command c.command c.commandLength 0
  let c := { c with command, cursor := c.cursor.putc newline }
  let line ← copyLine junk c
  let c ← consoleAddHistory line c
  let c := { c with historyIndex := 0 }
  let entered ← cString line
  let lines ← historyLines c
  let (effects, shell) ← callShell (consoleCommandLine env lines c.shell entered)
  let c ← consolePrompt { c with shell, cursor := effects.foldl Cursor.effect c.cursor }
  .ok (effects, c)

/-- The loop of a backspace -/
def backspace (c : ConsoleState) : Except Crash ConsoleState :=
  if c.commandCursor ≠ 0 then do
    let index := c.commandCursor - 1
    let command ← shiftDown .command (c.commandLength - index) index c.command
    .ok (consoleRedrawCommand { c with
      command, commandCursor := c.commandCursor - 1, commandLength := c.commandLength - 1 })
  else .ok c

/-- A character in the place of the cursor -/
def insertChar (ch : UInt8) (c : ConsoleState) : Except Crash ConsoleState := do
  let command ← shiftUp .command c.commandCursor c.commandLength c.command
  let command ← store .command command c.commandCursor ch
  let command ← store .command command (c.commandLength + 1) 0
  .ok { c with command, commandCursor := c.commandCursor + 1, commandLength := c.commandLength + 1 }

/-- `while (spaces-- && command_length < COMMAND_MAX)` -/
def insertSpaces : (spaces : Nat) → ConsoleState → Except Crash ConsoleState
  | 0, c => .ok c
  | spaces + 1, c =>
    if c.commandLength < commandMax then do insertSpaces spaces (← insertChar space c) else .ok c

/-- `4U - ((cursor_column - 7U) % 4U)`, in 32 bits -/
def tabSpaces (column : Nat) : Nat := 4 - (column + (2 ^ 32 - 7)) % 2 ^ 32 % 4

/-- `history[(history_index - 1U) % HISTORY_MAX]` -/
def historyEntry (c : ConsoleState) : Except Crash (List UInt8) := do
  cString (← load .history c.history ((c.historyIndex - 1) % historyMax))

/-- The Up key -/
def recallUp (c : ConsoleState) : Except Crash ConsoleState :=
  if c.historyCount ≠ 0 then do
    let c := if c.historyIndex < c.historyCount then { c with historyIndex := c.historyIndex + 1 } else c
    consoleSetCommand (← historyEntry c) c
  else .ok c

/-- The Down key -/
def recallDown (c : ConsoleState) : Except Crash ConsoleState :=
  if c.historyIndex ≠ 0 then do
    let c := { c with historyIndex := c.historyIndex - 1 }
    if c.historyIndex ≠ 0 then consoleSetCommand (← historyEntry c) c else consoleSetCommand [] c
  else .ok c

/-- `INPUT_MOD_CTRL` -/
def modCtrl : UInt8 := 2

/-- What a key does to the line, `Enter` apart -/
def editLine (event : Event) (c : ConsoleState) : Except Crash ConsoleState :=
  if event.key = .backspace then backspace c
  else if event.key = .tab then do
    .ok (consoleRedrawCommand (← insertSpaces (tabSpaces c.cursor.column) c))
  else if event.key = .left then
    if c.commandCursor ≠ 0 then .ok (consoleRedrawCommand { c with commandCursor := c.commandCursor - 1 }) else .ok c
  else if event.key = .right then
    if c.commandCursor < c.commandLength then
      .ok (consoleRedrawCommand { c with commandCursor := c.commandCursor + 1 })
    else .ok c
  else if event.key = .up then recallUp c
  else if event.key = .down then recallDown c
  else if event.modifiers &&& modCtrl ≠ 0 ∧ event.key = .a then
    .ok (consoleRedrawCommand { c with commandCursor := 0 })
  else if event.modifiers &&& modCtrl ≠ 0 ∧ event.key = .e then
    .ok (consoleRedrawCommand { c with commandCursor := c.commandLength })
  else if event.modifiers &&& modCtrl ≠ 0 ∧ event.key = .u then do
    let command ← store .command c.command 0 0
    .ok (consoleRedrawCommand { c with command, commandLength := 0, commandCursor := 0 })
  else if event.modifiers &&& modCtrl ≠ 0 ∧ event.key = .k then do
    let command ← store .command c.command c.commandCursor 0
    .ok (consoleRedrawCommand { c with command, commandLength := c.commandCursor })
  else if 32 ≤ event.character ∧ event.character ≤ 126 ∧ c.commandLength < commandMax then do
    .ok (consoleRedrawCommand (← insertChar event.character c))
  else .ok c

/-- An event, the tick count of the poll that takes it, and what the rest of the kernel and the stack have to
offer then -/
structure Moment where
  event : Event
  now : UInt64
  env : Env
  junk : Junk

/-- A key that goes down while the counters are zero -/
def press (key : Key) (character : UInt8) : Moment :=
  ⟨⟨key, 1, 0, character⟩, 0, ⟨0, 0, 0, 0, 0⟩, ⟨List.replicate (commandMax + 1) 0, List.length_replicate⟩⟩

/-- The event is the Enter key going down. -/
def Moment.Enters (m : Moment) : Prop := m.event.pressed ≠ 0 ∧ m.event.key = .enter

instance (m : Moment) : Decidable m.Enters := inferInstanceAs (Decidable (_ ∧ _))

/-- The body of the loop in `console_poll` -/
def consoleEvent (m : Moment) (c : ConsoleState) : Except Crash (List Effect × ConsoleState) :=
  if m.event.pressed = 0 then .ok ([], c)
  else do
    let (effects, c) ← if m.event.key = .enter then consoleCommand m.env m.junk { c with cursorVisible := false }
      else do .ok ([], ← editLine m.event c)
    .ok (effects, { c with cursorVisible := true, cursorTick := m.now })

/-- The end of `console_poll` -/
def blink (now frequency : UInt64) (c : ConsoleState) : ConsoleState :=
  if (if frequency / 2 ≠ 0 then frequency / 2 else 1) ≤ now - c.cursorTick then
    { c with cursorVisible := !c.cursorVisible, cursorTick := now }
  else c

/-- `console_init`; the statics are zero before it -/
def consoleInit (width height : Nat) (now : UInt64) (shell : Shell) : Except Crash ConsoleState :=
  consolePrompt {
    shell
    cursor := Cursor.init width height
    command := List.replicate (commandMax + 1) 0
    commandLength := 0
    commandCursor := 0
    cursorTick := now
    cursorVisible := true
    history := List.replicate historyMax (List.replicate (commandMax + 1) 0)
    historyCount := 0
    historyIndex := 0 }

end MinOS.Console
