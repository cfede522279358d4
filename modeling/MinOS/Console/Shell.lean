/-
# MinOS.Console.Shell — the commands of `kernel/console.c`.

`console_command` cuts the line into at most 8 words and dispatches on the first one. A command reads and
changes the filesystem and the working directory; everything else it does is written down in the order in which
it happens, as a list of effects: characters for the screen, and the calls it makes of `vfs_normalize` and of
the VFS. What characters do to the screen is in `MinOS.Console.Terminal`.

Strings are lists of characters without the NUL; serial output is left out. The counters that `mem`, `ticks` and
`uptime` print are in `Env`.
-/
import Mathlib.Data.Nat.Digits.Defs
import MinOS.Vfs.Model

namespace MinOS.Console

open MinOS.Vfs

/-- The characters of a literal -/
def text (s : String) : List UInt8 := s.toList.map fun c => UInt8.ofNat c.toNat

/-- `' '` -/
def space : UInt8 := 32
/-- `'\n'` -/
def newline : UInt8 := 10

/-- `COMMAND_MAX` -/
def commandMax : Nat := 127

/-! ## Effects -/

/-- What a command does outside the filesystem -/
inductive Effect
  /-- `console_putc` -/
  | putc (c : UInt8)
  /-- `fb_clear`, and the cursor to the upper left -/
  | clear
  /-- `vfs_normalize(cwd, path, …)` -/
  | normalize (cwd path : List UInt8)
  /-- a call of the VFS on this path -/
  | call (path : List UInt8)
  /-- `power_reboot` and `power_shutdown` do not return -/
  | halt
  deriving DecidableEq, Repr

/-- `console_puts` -/
def consolePuts (s : List UInt8) : List Effect := s.map .putc

/-- `console_error` -/
def consoleError : List Effect := consolePuts (text "error\n")

/-- `console_put_u64` -/
def consolePutU64 (value : UInt64) : List Effect :=
  if value = 0 then [.putc 48]
  else (((Nat.digits 10 value.toNat).map fun d => UInt8.ofNat (48 + d)).reverse).map .putc

/-- The characters a command prints -/
def printed (effects : List Effect) : List UInt8 :=
  effects.filterMap fun
    | .putc c => some c
    | _ => none

/-! ## Words -/

/-- `if (a >= 'A' && a <= 'Z') a = a - 'A' + 'a'` -/
def lower (c : UInt8) : UInt8 := if 65 ≤ c ∧ c ≤ 90 then c - 65 + 97 else c

/-- `console_streq` -/
def consoleStreq : (left right : List UInt8) → Bool
  | a :: left, b :: right => if lower a ≠ lower b then false else consoleStreq left right
  | [], [] => true
  | _, _ => false

/-- `console_words` -/
def consoleWords : (max : Nat) → (line : List UInt8) → List (List UInt8)
  | 0, _ => []
  | max + 1, line =>
    let start := line.dropWhile (· = space)
    if start = [] then []
    else start.takeWhile (· ≠ space) :: consoleWords max (start.dropWhile (· ≠ space)).tail

/-- The branches of `console_command` -/
inductive Command
  | help | clear | about | mem | ticks | uptime | reboot | shutdown | pwd | ls | cd | mkdir | rmdir | touch | rm
  | cat | write | append | cp | mv | tree | find | df | echo | history
  deriving DecidableEq, Repr

/-- The words the line is compared with, in the order of the source -/
def commandNames : List (List UInt8 × Command) :=
  [(text "help", .help), (text "clear", .clear), (text "about", .about), (text "mem", .mem),
    (text "ticks", .ticks), (text "uptime", .uptime), (text "reboot", .reboot),
    (text "shutdown", .shutdown), (text "pwd", .pwd), (text "ls", .ls), (text "cd", .cd),
    (text "mkdir", .mkdir), (text "rmdir", .rmdir), (text "touch", .touch), (text "rm", .rm),
    (text "cat", .cat), (text "write", .write), (text "append", .append), (text "cp", .cp),
    (text "mv", .mv), (text "tree", .tree), (text "find", .find), (text "df", .df),
    (text "echo", .echo), (text "history", .history)]

/-- The first branch whose word is `name` -/
def commandOf (name : List UInt8) : Option Command :=
  (commandNames.find? fun x => consoleStreq name x.1).map Prod.snd

/-! ## The state a command works on -/

/-- The filesystem and the working directory -/
structure Shell where
  fs : State
  cwd : List UInt8

/-- What the other parts of the kernel answer -/
structure Env where
  usableBytes : UInt64
  reservedBytes : UInt64
  freeFrames : UInt64
  ticks : UInt64
  frequency : UInt64

/-- `console_arg`: `argv[n]` normalised, or an error message -/
def consoleArg (cwd : List UInt8) (argv : List (List UInt8)) (n : Nat) :
    Except Fault (List Effect × Option (List UInt8)) :=
  match argv[n]? with
  | none => .ok (consoleError, none)
  | some arg => do
    match ← vfsNormalize cwd arg with
    | none => .ok (.normalize cwd arg :: consoleError, none)
    | some path => .ok ([.normalize cwd arg], some path)

/-- `argc > 1 ? 1 : 0` -/
def operand (argv : List (List UInt8)) : Nat := if 1 < argv.length then 1 else 0

/-! ## Listings -/

/-- `console_puts(name); if (type == VFS_DIRECTORY) console_putc('/'); console_putc('\n');` -/
def entryLine (e : VfsDirent) : List Effect :=
  consolePuts e.name ++ ((if e.type = VfsType.directory.code then [.putc slash] else []) ++ [.putc newline])

/-- `console_list` -/
def consoleList (s : State) (path : List UInt8) : Except Fault (List Effect) := do
  match ← vfsStatPath s path with
  | none => .ok (.call path :: consoleError)
  | some stat =>
    if stat.type = VfsType.file.code then .ok (.call path :: (consolePuts path ++ [.putc newline]))
    else
      match ← vfsList s path 64 with
      | none => .ok (.call path :: .call path :: consoleError)
      | some entries => .ok (.call path :: .call path :: entries.flatMap entryLine)

/-- `console_append_path(base, name, out, VFS_PATH_MAX + 1)`; `none` is -1 -/
def consoleAppendPath (base name : List UInt8) : Option (List UInt8) :=
  if vfsPathMax + 1 ≤ base.length + 1 then none
  else
    let out := if 1 < base.length then base ++ [slash] else base
    if name.length ≤ vfsPathMax - out.length then some (out ++ name) else none

/-- `for (i = 0; name[i]; ++i)`: does `needle` start at some place of the name -/
def consoleNameMatches : (name needle : List UInt8) → Bool
  | [], needle => needle.isEmpty
  | c :: name, needle => needle.isEmpty || needle.isPrefixOf (c :: name) || consoleNameMatches name needle

/-- `console_tree_walk`, with `fuel` the levels that are left of 16 -/
def consoleTreeWalk (s : State) : (fuel depth : Nat) → (path : List UInt8) → Except Fault (List Effect)
  | 0, _, _ => .ok []
  | fuel + 1, depth, path => do
    match ← vfsList s path 64 with
    | none => .ok [.call path]
    | some entries =>
      let lines ← entries.mapM fun e => do
        let line := (List.replicate depth (consolePuts (text "  "))).flatten ++ entryLine e
        if e.type = VfsType.directory.code then
          match consoleAppendPath path e.name with
          | none => .ok line
          | some child => .ok (line ++ (← consoleTreeWalk s fuel (depth + 1) child))
        else .ok line
      .ok (.call path :: lines.flatten)

/-- `console_find_walk` -/
def consoleFindWalk (s : State) (needle : List UInt8) :
    (fuel : Nat) → (path : List UInt8) → Except Fault (List Effect)
  | 0, _ => .ok []
  | fuel + 1, path => do
    match ← vfsList s path 64 with
    | none => .ok [.call path]
    | some entries =>
      let lines ← entries.mapM fun e =>
        match consoleAppendPath path e.name with
        | none => .ok []
        | some child => do
          let line := if consoleNameMatches e.name needle then consolePuts child ++ [.putc newline] else []
          if e.type = VfsType.directory.code then .ok (line ++ (← consoleFindWalk s needle fuel child))
          else .ok line
      .ok (.call path :: lines.flatten)

/-! ## Commands -/

/-- `if (rc) console_error();` -/
def report (rc : Int) : List Effect := if rc ≠ 0 then consoleError else []

/-- `mkdir`, `rmdir`, `touch` and `rm`: one operand and one call -/
def onPath (op : State → List UInt8 → Except Fault (Int × State)) (sh : Shell) (argv : List (List UInt8)) :
    Except Fault (List Effect × Shell) := do
  match ← consoleArg sh.cwd argv 1 with
  | (effects, none) => .ok (effects, sh)
  | (effects, some path) => do
    let (rc, fs) ← op sh.fs path
    .ok (effects ++ .call path :: report rc, { sh with fs })

/-- `cp` and `mv`: two operands and one call; nothing at all with fewer words -/
def onPaths (op : State → List UInt8 → List UInt8 → Except Fault (Int × State)) (sh : Shell)
    (argv : List (List UInt8)) : Except Fault (List Effect × Shell) :=
  if argv.length < 3 then .ok ([], sh)
  else do
    match ← consoleArg sh.cwd argv 1 with
    | (effects, none) => .ok (effects, sh)
    | (effects, some path) => do
      match ← consoleArg sh.cwd argv 2 with
      | (effects', none) => .ok (effects ++ effects', sh)
      | (effects', some path2) => do
        let (rc, fs) ← op sh.fs path path2
        .ok (effects ++ (effects' ++ .call path :: .call path2 :: report rc), { sh with fs })

/-- `if (j > 2 && at < sizeof(data) - 1U) data[at++] = ' ';` and the word, as far as there is room -/
def appendWord (data word : List UInt8) (first : Bool) : List UInt8 :=
  let data := if first = false ∧ data.length < commandMax then data ++ [space] else data
  data ++ word.take (commandMax - data.length)

/-- `for (j = 2; j < argc; ++j)`: the text of `write` and `append` -/
def assemble : (words : List (List UInt8)) → (data : List UInt8) → (first : Bool) → List UInt8
  | [], data, _ => data
  | word :: words, data, first => assemble words (appendWord data word first) false

/-- `write` and `append` -/
def onText (append : Bool) (sh : Shell) (argv : List (List UInt8)) : Except Fault (List Effect × Shell) :=
  if argv.length < 3 then .ok (consoleError, sh)
  else do
    match ← consoleArg sh.cwd argv 1 with
    | (effects, none) => .ok (effects ++ consoleError, sh)
    | (effects, some path) => do
      let (rc, fs) ← vfsWrite sh.fs path (assemble (argv.drop 2) [] true) append
      .ok (effects ++ .call path :: report rc, { sh with fs })

/-- `cd`: the path becomes the working directory if it is a directory -/
def changeDirectory (sh : Shell) (argv : List (List UInt8)) : Except Fault (List Effect × Shell) := do
  match ← consoleArg sh.cwd argv (operand argv) with
  | (effects, none) => .ok (effects ++ consoleError, sh)
  | (effects, some path) => do
    if ← vfsIsDirectory sh.fs path then .ok (effects ++ [.call path], { sh with cwd := path })
    else .ok (effects ++ .call path :: consoleError, sh)

/-- `ls` -/
def list (sh : Shell) (argv : List (List UInt8)) : Except Fault (List Effect × Shell) := do
  match ← consoleArg sh.cwd argv (operand argv) with
  | (effects, none) => .ok (effects, sh)
  | (effects, some path) => .ok (effects ++ (← consoleList sh.fs path), sh)

/-- `cat`: at most 127 bytes are read, and printed up to the first NUL -/
def concatenate (sh : Shell) (argv : List (List UInt8)) : Except Fault (List Effect × Shell) := do
  match ← consoleArg sh.cwd argv 1 with
  | (effects, none) => .ok (effects, sh)
  | (effects, some path) => do
    match ← vfsRead sh.fs path 127 with
    | (none, fs) => .ok (effects ++ .call path :: consoleError, { sh with fs })
    | (some data, fs) =>
      .ok (effects ++ .call path :: (consolePuts (data.takeWhile (· ≠ 0)) ++ [.putc newline]), { sh with fs })

/-- `tree` -/
def tree (sh : Shell) (argv : List (List UInt8)) : Except Fault (List Effect × Shell) := do
  match ← consoleArg sh.cwd argv (operand argv) with
  | (effects, none) => .ok (effects, sh)
  | (effects, some path) => do
    match ← vfsStatPath sh.fs path with
    | none => .ok (effects ++ .call path :: consoleError, sh)
    | some stat => do
      let walk ← if stat.type = VfsType.directory.code then consoleTreeWalk sh.fs 16 0 path else .ok []
      .ok (effects ++ .call path :: (consolePuts path ++ .putc newline :: walk), sh)

/-- `find` -/
def search (sh : Shell) (argv : List (List UInt8)) : Except Fault (List Effect × Shell) := do
  match ← consoleArg sh.cwd argv (operand argv) with
  | (effects, none) => .ok (effects, sh)
  | (effects, some path) => do
    let needle := argv.getD 2 []
    match ← vfsStatPath sh.fs path with
    | none => .ok (effects ++ .call path :: consoleError, sh)
    | some stat =>
      if stat.type = VfsType.file.code then
        .ok (effects ++ .call path ::
          (if consoleNameMatches path needle then consolePuts path ++ [.putc newline] else []), sh)
      else .ok (effects ++ .call path :: (← consoleFindWalk sh.fs needle 16 path), sh)

/-- `for (i = 1; i < argc; ++i) { if (i > 1) console_putc(' '); console_puts(argv[i]); }` -/
def echo (words : List (List UInt8)) : List Effect :=
  consolePuts (List.intercalate [space] words) ++ [.putc newline]

/-- `history`: the lines, newest first, each with its number -/
def printHistory : (lines : List (List UInt8)) → (i : Nat) → List Effect
  | [], _ => []
  | line :: lines, i =>
    consolePutU64 (UInt64.ofNat (i + 1)) ++
      (consolePuts (text " ") ++ (consolePuts line ++ .putc newline :: printHistory lines (i + 1)))

/-- The branch of a command -/
def branch (env : Env) (lines : List (List UInt8)) (sh : Shell) (argv : List (List UInt8)) :
    Command → Except Fault (List Effect × Shell)
  | .help => .ok (consolePuts (text "BashPlus - MinOS shell\n" ++
      text "System: about clear help mem ticks uptime reboot shutdown\n" ++
      text "Files:  pwd ls cd mkdir rmdir touch cat write append rm cp mv tree find df\n" ++
      text "Shell:  echo history\n"), sh)
  | .clear => .ok ([.clear], sh)
  | .about => .ok (consolePuts (text "MinOS interactive kernel console\n" ++
      text "x86_64 UEFI | framebuffer | IRQ input\n"), sh)
  | .mem => .ok (consolePuts (text "usable: ") ++ consolePutU64 (env.usableBytes / (1024 * 1024)) ++
      consolePuts (text " MiB, reserved: ") ++ consolePutU64 (env.reservedBytes / (1024 * 1024)) ++
      consolePuts (text " MiB, free frames: ") ++ consolePutU64 env.freeFrames ++ [.putc newline], sh)
  | .ticks => .ok (consolePuts (text "ticks: ") ++ consolePutU64 env.ticks ++ consolePuts (text " (") ++
      consolePutU64 env.frequency ++ consolePuts (text " Hz)\n"), sh)
  | .uptime => .ok (consolePuts (text "uptime: ") ++
      consolePutU64 (if env.frequency ≠ 0 then env.ticks / env.frequency else 0) ++
      consolePuts (text " seconds\n"), sh)
  | .reboot => .ok ([.halt], sh)
  | .shutdown => .ok ([.halt], sh)
  | .pwd => .ok (consolePuts sh.cwd ++ [.putc newline], sh)
  | .ls => list sh argv
  | .cd => changeDirectory sh argv
  | .mkdir => onPath vfsMkdir sh argv
  | .rmdir => onPath vfsRmdir sh argv
  | .touch => onPath vfsTouch sh argv
  | .rm => onPath vfsRemove sh argv
  | .cat => concatenate sh argv
  | .write => onText false sh argv
  | .append => onText true sh argv
  | .cp => onPaths vfsCopy sh argv
  | .mv => onPaths vfsMove sh argv
  | .tree => tree sh argv
  | .find => search sh argv
  | .df => .ok (consolePuts (text (if Ata.ataPrimaryMasterPresent sh.fs.drive then "disk: persistent ATA\n"
      else "disk: volatile memory\n")), sh)
  | .echo => .ok (echo argv.tail, sh)
  | .history => .ok (printHistory lines 0, sh)

/-- `console_command` behind `console_words` -/
def consoleCommandWords (env : Env) (lines : List (List UInt8)) (sh : Shell) (argv : List (List UInt8)) :
    Except Fault (List Effect × Shell) :=
  match argv with
  | [] => .ok ([], sh)
  | name :: _ =>
    match commandOf name with
    | none => .ok (consolePuts (text "Unknown command. Type help.\n"), sh)
    | some c => branch env lines sh argv c

/-- `console_command` from `console_words` to the prompt: a line that was entered, and the history with this line
in it -/
def consoleCommandLine (env : Env) (lines : List (List UInt8)) (sh : Shell) (line : List UInt8) :
    Except Fault (List Effect × Shell) := consoleCommandWords env lines sh (consoleWords 8 line)

end MinOS.Console
