/-
# MinOS.Console.Operand — `ls`, `cd`, `tree` and `find` without an operand.

`console_path` turns a missing argument into `.`; the four commands never pass it one. Without an operand they
take `argv[0]`, the word they were called by, so a bare `ls` lists the entry `ls` of the working directory. What
each command answers is a function of the table and of the path its operand normalises to (`output`, `goesTo`);
the two paths are the working directory and its entry with the name of the command, and the answers agree only by
accident (`bare_operand_iff`).
-/
import MinOS.Console.WorkingDirectory

namespace MinOS.Console

open MinOS.Vfs MinOS.Ata NameTree Machine

/-! ## Command words -/

theorem consoleStreq_iff {left right : List UInt8} :
    consoleStreq left right = true ↔ left.map lower = right.map lower := by
  induction left generalizing right with
  | nil => cases right <;> simp [consoleStreq]
  | cons a left ih =>
    cases right with
    | nil => simp [consoleStreq]
    | cons b right =>
      rw [consoleStreq, List.map_cons, List.map_cons, List.cons.injEq]
      split
      · rename_i hne
        simp [hne]
      · rename_i heq
        rw [not_not] at heq
        rw [ih]
        simp [heq]

/-- The commands whose operand may be left out -/
def operandOptional : List Command := [.ls, .cd, .tree, .find]

/-- A command is called by its name, in any case. -/
theorem map_lower_of_commandOf {w : List UInt8} {cmd : Command} (h : commandOf w = some cmd) :
    ∃ x ∈ commandNames, x.2 = cmd ∧ w.map lower = x.1 := by
  obtain ⟨x, hx, rfl⟩ := Option.map_eq_some_iff.mp h
  have hstreq := List.find?_some hx
  have hlower : ∀ x ∈ commandNames, x.1.map lower = x.1 := by decide
  refine ⟨x, List.mem_of_find?_eq_some hx, rfl, ?_⟩
  rw [consoleStreq_iff.mp hstreq, hlower x (List.mem_of_find?_eq_some hx)]

/-- The four words are names of at least two characters without a newline. -/
structure CommandWord (w : List UInt8) : Prop where
  good : GoodName w
  length : 2 ≤ w.length ∧ w.length ≤ 4
  newline_notMem : newline ∉ w

theorem commandWord_of_commandOf {w : List UInt8} {cmd : Command} (h : commandOf w = some cmd)
    (hcmd : cmd ∈ operandOptional) : CommandWord w := by
  obtain ⟨x, hx, rfl, hw⟩ := map_lower_of_commandOf h
  have hshort : ∀ x ∈ commandNames, x.2 ∈ operandOptional → 2 ≤ x.1.length ∧ x.1.length ≤ 4 := by decide
  have hletters : ∀ x ∈ commandNames, ∀ c ∈ [slash, 0, dot, newline], lower c ∉ x.1 := by decide +kernel
  have hlength := hshort x hx hcmd
  rw [← hw, List.length_map] at hlength
  have hnot : ∀ c ∈ [slash, 0, dot, newline], c ∉ w := by
    intro c hc hmem
    apply hletters x hx c hc
    rw [← hw]
    exact List.mem_map_of_mem hmem
  refine ⟨⟨?_, ?_, hnot slash (by simp), hnot 0 (by simp), ?_, ?_⟩, hlength, hnot newline (by simp)⟩
  · rintro rfl
    exact absurd hlength.1 (by decide)
  · exact hlength.2.trans (by decide)
  · rintro rfl
    exact hnot dot (by simp) (by simp)
  · rintro rfl
    exact hnot dot (by simp) (by simp)

/-! ## The two paths -/

/-- What `.` normalises to -/
def dotPath (c : List (List UInt8)) : Option (List (List UInt8)) :=
  if vfsPathMax < (joinParts c).length + 2 then none else some c

/-- What the word of the command normalises to -/
def barePath (c : List (List UInt8)) (w : List UInt8) : Option (List (List UInt8)) :=
  if vfsPathMax < (joinParts c).length + 1 + w.length ∨ 16 ≤ c.length then none else some (c ++ [w])

section Paths

variable {c : List (List UInt8)} (hc : Canonical c)
include hc

theorem vfsNormalize_of_fold {path : List UInt8} (hne : path ≠ []) (hrel : path.head? ≠ some slash) (hnul : 0 ∉ path)
    (hlen : path.length ≤ vfsPathMax) : vfsNormalize (joinParts c) path =
      .ok (if vfsPathMax < (joinParts c).length + 1 + path.length then none
        else (foldParts path c).map joinParts) := by
  have hcwd := hc.length_le
  simp only [vfsPathMax] at hlen hcwd
  exact vfsNormalize_of_relative hc ⟨path, hnul, hne, hrel⟩ (show (joinParts c).length + 1 + path.length < _ by omega)

theorem vfsNormalize_dot : vfsNormalize (joinParts c) [dot] = .ok ((dotPath c).map joinParts) := by
  rw [vfsNormalize_of_fold hc (by decide) (by decide) (by decide) (by decide)]
  show Except.ok (if vfsPathMax < (joinParts c).length + 2 then none else _) = _
  unfold dotPath
  split <;> rfl

theorem canonical_of_dotPath {q : List (List UInt8)} (hq : dotPath c = some q) : Canonical q := by
  unfold dotPath at hq
  split at hq
  · cases hq
  · exact Option.some.inj hq ▸ hc

theorem canonical_of_barePath {w : List UInt8} (hw : GoodName w) {q : List (List UInt8)}
    (hq : barePath c w = some q) : Canonical q := by
  unfold barePath at hq
  split at hq
  · cases hq
  · rename_i hfit
    rw [not_or] at hfit
    obtain rfl := Option.some.inj hq
    refine ⟨?_, ?_, ?_⟩
    · intro x hx
      rcases List.mem_append.mp hx with hx | hx
      · exact hc.good x hx
      · exact List.mem_singleton.mp hx ▸ hw
    · rw [List.length_append, List.length_singleton]
      omega
    · have hjoin : (joinParts (c ++ [w])).length ≤ (joinParts c).length + 1 + w.length := by
        rw [joinParts_concat, joinPart, List.length_append]
        split
        · rw [List.length_append, List.length_singleton]
        · omega
      omega

theorem vfsNormalize_word {w : List UInt8} (hw : CommandWord w) :
    vfsNormalize (joinParts c) w = .ok ((barePath c w).map joinParts) := by
  have hrel : w.head? ≠ some slash := by
    intro hhead
    exact hw.good.slash_notMem (List.mem_of_mem_head? hhead)
  rw [vfsNormalize_of_fold hc hw.good.ne_nil hrel hw.good.nul_notMem (hw.length.2.trans (by decide))]
  have hfold : foldParts w c = if 16 ≤ c.length then none else some (c ++ [w]) := by
    rw [foldParts, List.splitOn_eq_singleton hw.good.slash_notMem, List.foldlM_cons, pushPart,
      if_neg hw.good.ne_nil, if_neg hw.good.ne_dot, if_neg hw.good.ne_dotdot]
    by_cases hdeep : 16 ≤ c.length
    · rw [if_neg (by omega), if_pos hdeep]
      rfl
    · rw [if_pos ⟨hw.good.length_le, by omega⟩, if_neg hdeep]
      rfl
  rw [hfold]
  unfold barePath
  split
  · rename_i hlong
    rw [if_pos (Or.inl hlong)]
    rfl
  · rename_i hshort
    split
    · rename_i hdeep
      rw [if_pos (Or.inr hdeep)]
    · rename_i hroom
      rw [if_neg (not_or.mpr ⟨hshort, hroom⟩)]

end Paths

/-! ## The answers -/

/-- `error` and a newline -/
def errorText : List UInt8 := text "error\n"

/-- The lines of a directory -/
def listing (t : Table) (n : Slot) : List UInt8 := (children t n).flatMap (treeText t 0)

/-- The paths of everything below a directory -/
def foundText (t : Table) (q : List (List UInt8)) (n : Slot) : List UInt8 :=
  (preorder t 16 q n).flatMap fun v => joinParts v.1 ++ [newline]

/-- What one of the four commands prints for a path that leads to the record `n` -/
def found (t : Table) (q : List (List UInt8)) (n : Slot) : Command → List UInt8
  | .ls => if (t n).type = VfsType.directory.code then listing t n else joinParts q ++ [newline]
  | .tree => joinParts q ++ newline ::
      (preorder t 16 q n).flatMap fun v => treeText t (v.1.length - (q.length + 1)) v.2
  | .find => if (t n).type = VfsType.directory.code then foundText t q n else joinParts q ++ [newline]
  | .cd => if (t n).type = VfsType.directory.code then [] else errorText
  | _ => []

/-- What it prints when its operand normalises to `path`; `cd` reports a failed normalisation twice. -/
def output (t : Table) (cmd : Command) (path : Option (List (List UInt8))) : List UInt8 :=
  match path with
  | none => if cmd = .cd then errorText ++ errorText else errorText
  | some q =>
    match resolve t q with
    | none => errorText
    | some n => found t q n cmd

/-- Where it goes -/
def goesTo (t : Table) (cwd : List UInt8) (cmd : Command) (path : Option (List (List UInt8))) : List UInt8 :=
  match path with
  | none => cwd
  | some q => if cmd = .cd ∧ ∃ n, resolve t q = some n ∧ (t n).type = VfsType.directory.code then joinParts q else cwd

theorem printed_entryLine {s : State} (h : Wf s.records) {n i : Slot} (hi : i ∈ children s.records n) :
    printed (entryLine (direntOf (s.records i))) = treeText s.records 0 i := by
  obtain ⟨hname, htype⟩ := direntOf_child h hi
  rw [← printed_treeLine, treeLine, List.replicate_zero, List.flatten_nil, List.nil_append]
  unfold entryLine
  rw [hname, htype]

theorem consoleArg_of_none {cwd arg : List UInt8} {argv : List (List UInt8)} {n : Nat} (harg : argv[n]? = some arg)
    (hnorm : vfsNormalize cwd arg = .ok none) :
    consoleArg cwd argv n = .ok (.normalize cwd arg :: consoleError, none) := by
  rw [consoleArg, harg]
  dsimp only
  rw [hnorm, ok_bind]

/-- The two kinds of records -/
theorem file_iff {t : Table} (h : Wf t) {q : List (List UInt8)} {n : Slot} (hn : resolve t q = some n) :
    (t n).type = VfsType.file.code ↔ ¬ (t n).type = VfsType.directory.code := by
  constructor
  · intro hf hd
    rw [hf] at hd
    exact absurd hd (by decide)
  · exact (h.type n (h.path_used (h.resolve_eq_some_iff.mp hn))).resolve_left

theorem goesTo_of_ne {t : Table} {cwd : List UInt8} {cmd : Command} (hcmd : cmd ≠ .cd)
    {path : Option (List (List UInt8))} : goesTo t cwd cmd path = cwd := by
  unfold goesTo
  split
  · rfl
  · exact if_neg fun hcd => hcmd hcd.1

section Answers

variable {sh : Shell} (h : Ready sh) {argv : List (List UInt8)} {arg : List UInt8}
  {path : Option (List (List UInt8))} (harg : argv[operand argv]? = some arg)
  (hnorm : vfsNormalize sh.cwd arg = .ok (path.map joinParts)) (hpath : ∀ q, path = some q → Canonical q)
include h harg hnorm hpath

theorem printed_list : ∃ effects, list sh argv = .ok (effects, sh) ∧
    printed effects = output sh.fs.records .ls path := by
  unfold list
  cases path with
  | none =>
    rw [consoleArg_of_none harg hnorm, ok_bind]
    exact ⟨_, rfl, rfl⟩
  | some q =>
    rw [consoleArg_eq harg hnorm, ok_bind]
    dsimp only
    rw [consoleList_eq h.inv.wf (hpath q rfl), ok_bind]
    refine ⟨_, rfl, ?_⟩
    rw [output]
    cases hn : resolve sh.fs.records q with
    | none => rfl
    | some n =>
      dsimp only [found]
      by_cases hd : (sh.fs.records n).type = VfsType.directory.code
      · rw [if_pos hd, if_neg fun hf => (file_iff h.inv.wf hn).mp hf hd, listing, printed_append, printed_call,
          printed_call, printed_flatMap]
        exact List.flatMap_congr fun i hi => printed_entryLine h.inv.wf hi
      · rw [if_neg hd, if_pos ((file_iff h.inv.wf hn).mpr hd)]
        simp

theorem printed_tree : ∃ effects, tree sh argv = .ok (effects, sh) ∧
    printed effects = output sh.fs.records .tree path := by
  unfold tree
  cases path with
  | none =>
    rw [consoleArg_of_none harg hnorm, ok_bind]
    exact ⟨_, rfl, rfl⟩
  | some q =>
    rw [consoleArg_eq harg hnorm, ok_bind]
    dsimp only
    rw [vfsStatPath_joinParts h.inv.wf (hpath q rfl), ok_bind, output]
    cases hn : resolve sh.fs.records q with
    | none => exact ⟨_, rfl, rfl⟩
    | some n =>
      have hp := h.inv.wf.resolve_eq_some_iff.mp hn
      dsimp only [Option.map_some, found]
      split
      · rename_i hd
        rw [consoleTreeWalk_eq h.inv.wf 16 0 hp hd, ok_bind]
        refine ⟨_, rfl, ?_⟩
        simp [printed_treeEffects h.inv.wf 16 0 hp, printed_treeLine]
      · rename_i hf
        refine ⟨_, rfl, ?_⟩
        simp [preorder_of_file h.inv.wf hf hp]

theorem printed_search (hneedle : argv.length ≤ 2) : ∃ effects, search sh argv = .ok (effects, sh) ∧
    printed effects = output sh.fs.records .find path := by
  have hnone : argv.getD 2 [] = [] := by
    rw [List.getD_eq_getElem?_getD, List.getElem?_eq_none hneedle]
    rfl
  unfold search
  rw [hnone]
  cases path with
  | none =>
    rw [consoleArg_of_none harg hnorm, ok_bind]
    exact ⟨_, rfl, rfl⟩
  | some q =>
    rw [consoleArg_eq harg hnorm, ok_bind]
    dsimp only
    rw [vfsStatPath_joinParts h.inv.wf (hpath q rfl), ok_bind, output]
    cases hn : resolve sh.fs.records q with
    | none => exact ⟨_, rfl, rfl⟩
    | some n =>
      have hp := h.inv.wf.resolve_eq_some_iff.mp hn
      dsimp only [Option.map_some, found]
      by_cases hd : (sh.fs.records n).type = VfsType.directory.code
      · rw [if_pos hd, if_neg fun hf => (file_iff h.inv.wf hn).mp hf hd, consoleFindWalk_eq h.inv.wf [] 16 hp hd,
          ok_bind]
        refine ⟨_, rfl, ?_⟩
        simp [printed_findEffects h.inv.wf [] 16 hp, printed_findLine, foundText]
      · rw [if_neg hd, if_pos ((file_iff h.inv.wf hn).mpr hd)]
        refine ⟨_, rfl, ?_⟩
        rw [if_pos (consoleNameMatches_iff.mpr List.nil_infix)]
        simp

theorem printed_changeDirectory : ∃ effects, changeDirectory sh argv =
    .ok (effects, { sh with cwd := goesTo sh.fs.records sh.cwd .cd path }) ∧
    printed effects = output sh.fs.records .cd path := by
  unfold changeDirectory
  cases path with
  | none =>
    rw [consoleArg_of_none harg hnorm, ok_bind]
    exact ⟨_, rfl, rfl⟩
  | some q =>
    rw [consoleArg_eq harg hnorm, ok_bind]
    dsimp only
    rw [vfsIsDirectory_joinParts h.inv.wf (hpath q rfl), ok_bind, output, goesTo]
    by_cases hdir : ∃ n, resolve sh.fs.records q = some n ∧ (sh.fs.records n).type = VfsType.directory.code
    · obtain ⟨n, hn, hd⟩ := hdir
      have hdir : ∃ n, resolve sh.fs.records q = some n ∧ (sh.fs.records n).type = VfsType.directory.code :=
        ⟨n, hn, hd⟩
      rw [if_pos (decide_eq_true hdir), if_pos ⟨rfl, hdir⟩, hn]
      dsimp only [found]
      rw [if_pos hd]
      exact ⟨_, rfl, rfl⟩
    · rw [if_neg (by simpa using hdir), if_neg fun hall => hdir hall.2]
      cases hn : resolve sh.fs.records q with
      | none => exact ⟨_, rfl, rfl⟩
      | some n =>
        dsimp only [found]
        rw [if_neg fun hd => hdir ⟨n, hn, hd⟩]
        exact ⟨_, rfl, rfl⟩

/-- **What the four commands answer** -/
theorem execute_answer {cmd : Command} (hcmd : cmd ∈ operandOptional) {w : List UInt8} {rest : List (List UInt8)}
    (hargv : argv = w :: rest) (hrest : rest.length ≤ 1) (hname : commandOf w = some cmd) {line : Line}
    (hwords : consoleWords 8 line.chars = argv) (env : Env) (lines : List (List UInt8)) :
    ∃ effects, consoleCommandLine env lines sh line.chars =
      .ok (effects, { sh with cwd := goesTo sh.fs.records sh.cwd cmd path }) ∧
      printed effects = output sh.fs.records cmd path := by
  rw [execute_eq (hwords.trans hargv) hname, ← hargv]
  simp only [operandOptional, List.mem_cons, List.not_mem_nil, or_false] at hcmd
  rcases hcmd with rfl | rfl | rfl | rfl
  · rw [goesTo_of_ne (by decide)]
    exact printed_list h harg hnorm hpath
  · exact printed_changeDirectory h harg hnorm hpath
  · rw [goesTo_of_ne (by decide)]
    exact printed_tree h harg hnorm hpath
  · rw [goesTo_of_ne (by decide)]
    exact printed_search h harg hnorm hpath (by rw [hargv, List.length_cons]; omega)

end Answers

/-- Two lines print the same and leave the same filesystem and working directory. -/
def SameAnswer (env : Env) (lines lines' : List (List UInt8)) (sh : Shell) (line line' : Line) : Prop :=
  ∃ effects effects' sh', consoleCommandLine env lines sh line.chars = .ok (effects, sh') ∧
    consoleCommandLine env lines' sh line'.chars = .ok (effects', sh') ∧ printed effects = printed effects'

section Same

variable {sh : Shell} (h : Ready sh) {c : List (List UInt8)} (hc : Canonical c) (hcwd : sh.cwd = joinParts c)
  {cmd : Command} (hcmd : cmd ∈ operandOptional) {w : List UInt8} (hname : commandOf w = some cmd)
include h hc hcwd hcmd hname

/-- The command with and without its operand, as answers to the two paths -/
theorem sameAnswer_iff {bare dotted : Line} (hbare : consoleWords 8 bare.chars = [w])
    (hdotted : consoleWords 8 dotted.chars = [w, [dot]]) (env : Env) (lines lines' : List (List UInt8)) :
    SameAnswer env lines lines' sh bare dotted ↔
      output sh.fs.records cmd (barePath c w) = output sh.fs.records cmd (dotPath c) ∧
      goesTo sh.fs.records sh.cwd cmd (barePath c w) = goesTo sh.fs.records sh.cwd cmd (dotPath c) := by
  have hw := commandWord_of_commandOf hname hcmd
  have hnormBare := vfsNormalize_word hc hw
  have hnormDot := vfsNormalize_dot hc
  rw [← hcwd] at hnormBare hnormDot
  obtain ⟨e, hexec, hprinted⟩ := execute_answer h (show [w][operand [w]]? = some w from rfl) hnormBare
    (fun _ => canonical_of_barePath hc hw.good) hcmd rfl (by simp) hname hbare env lines
  obtain ⟨e', hexec', hprinted'⟩ := execute_answer h (show [w, [dot]][operand [w, [dot]]]? = some [dot] from rfl)
    hnormDot (fun _ => canonical_of_dotPath hc) hcmd rfl (by simp) hname hdotted env lines'
  rw [← hprinted, ← hprinted']
  constructor
  · rintro ⟨f, f', sh', hf, hf', hsame⟩
    rw [hexec] at hf
    rw [hexec'] at hf'
    obtain ⟨rfl, hsh⟩ := Prod.mk.inj (Except.ok.inj hf)
    obtain ⟨rfl, hsh'⟩ := Prod.mk.inj (Except.ok.inj hf')
    exact ⟨hsame, congrArg Shell.cwd (hsh.trans hsh'.symm)⟩
  · rintro ⟨hsame, hgoes⟩
    exact ⟨e, e', _, hexec, by rw [hgoes]; exact hexec', hsame⟩

end Same

/-! ## When they agree -/

/-- `.` is too long behind the working directory, or the working directory names nothing. -/
def DotFails (t : Table) (c : List (List UInt8)) : Prop :=
  vfsPathMax < (joinParts c).length + 2 ∨ resolve t c = none

/-- The accidents: both operands fail; the entry `w` has the lines of the directory, or the directory the line of an
error; the entry `w`, a file, is all there is to find -/
def Agree (t : Table) (c : List (List UInt8)) (w : List UInt8) : Command → Prop
  | .ls => DotFails t c ∨ ∃ n, DirAt t c n ∧
      (resolve t (c ++ [w]) = none ∧ listing t n = errorText ∨
        ∃ m, DirAt t (c ++ [w]) m ∧ listing t m = listing t n)
  | .cd => vfsPathMax < (joinParts c).length + 2 ∨ (∀ n, ¬ DirAt t c n) ∧
      (joinParts c).length + 1 + w.length ≤ vfsPathMax ∧ c.length < 16
  | .tree => DotFails t c
  | .find => DotFails t c ∨ ∃ n m, DirAt t c n ∧ preorder t 16 c n = [(c ++ [w], m)] ∧
      (t m).type = VfsType.file.code
  | _ => True

section Accidents

variable {t : Table} (h : Wf t) {c : List (List UInt8)} (hc : Canonical c) {w : List UInt8} (hw : CommandWord w)
include h

/-- What is below something is below a directory. -/
theorem dirAt_of_resolve_concat {m : Slot} (hm : resolve t (c ++ [w]) = some m) :
    ∃ n, DirAt t c n ∧ m ∈ children t n ∧ nameOf t m = w := by
  have hpath := Links.path_concat_iff.mp (h.resolve_eq_some_iff.mp hm)
  obtain ⟨hmem, hname⟩ := mem_children_of_isChild h hpath.1
  refine ⟨_, ⟨hpath.2, ?_⟩, hmem, hname⟩
  by_contra hdir
  have hfile := (h.type _ (h.path_used hpath.2)).resolve_left hdir
  rw [children_of_file h hfile] at hmem
  exact absurd hmem List.not_mem_nil

theorem resolve_of_dirAt {q : List (List UInt8)} {n : Slot} (hn : DirAt t q n) : resolve t q = some n :=
  h.resolve_eq_some_iff.mpr hn.1

include hw in
/-- An entry that exists can be named. -/
theorem barePath_of_resolve {m : Slot} (hm : resolve t (c ++ [w]) = some m) :
    barePath c w = some (c ++ [w]) ∧ dotPath c = some c := by
  have hcanonical := h.canonical_of_path (h.resolve_eq_some_iff.mp hm)
  have hdepth := hcanonical.depth_le
  have hlen := hcanonical.length_le
  have hw2 := hw.length
  rw [List.length_append, List.length_singleton] at hdepth
  rw [joinParts_concat, joinPart, List.length_append] at hlen
  have hbound : (joinParts c).length + 1 + w.length ≤ vfsPathMax := by
    split at hlen
    · rw [List.length_append, List.length_singleton] at hlen
      exact hlen
    · simp only [vfsPathMax] at hlen ⊢
      omega
  constructor
  · rw [barePath, if_neg (by omega)]
  · rw [dotPath, if_neg (by omega)]

include hw in
theorem resolve_concat_of_dotFails (hdot : DotFails t c) : resolve t (c ++ [w]) = none := by
  cases hm : resolve t (c ++ [w]) with
  | none => rfl
  | some m =>
    exfalso
    obtain ⟨n, hn, -⟩ := dirAt_of_resolve_concat h hm
    rcases hdot with hlong | hnone
    · have := (barePath_of_resolve h hw hm).2
      rw [dotPath, if_pos hlong] at this
      cases this
    · rw [resolve_of_dirAt h hn] at hnone
      cases hnone

theorem resolve_concat_of_file {n : Slot} (hn : resolve t c = some n)
    (hfile : ¬ (t n).type = VfsType.directory.code) : resolve t (c ++ [w]) = none := by
  cases hm : resolve t (c ++ [w]) with
  | none => rfl
  | some m =>
    obtain ⟨n', hn', -⟩ := dirAt_of_resolve_concat h hm
    rw [resolve_of_dirAt h hn'] at hn
    exact absurd (Option.some.inj hn ▸ hn'.2) hfile

omit h in
theorem output_bare_of_none {cmd : Command} (hcmd : cmd ≠ .cd) (hm : resolve t (c ++ [w]) = none) :
    output t cmd (barePath c w) = errorText := by
  unfold barePath
  split
  · rw [output, if_neg hcmd]
  · rw [output, hm]

include hw in
theorem output_bare_of_some {m : Slot} (hm : resolve t (c ++ [w]) = some m) (cmd : Command) :
    output t cmd (barePath c w) = found t (c ++ [w]) m cmd := by
  rw [(barePath_of_resolve h hw hm).1, output, hm]

omit h in
theorem output_dot_of_fails {cmd : Command} (hcmd : cmd ≠ .cd) (hdot : DotFails t c) :
    output t cmd (dotPath c) = errorText := by
  unfold dotPath
  split
  · rw [output, if_neg hcmd]
  · rename_i hshort
    rw [output, hdot.resolve_left hshort]

omit h in
theorem exists_of_not_dotFails (hdot : ¬ DotFails t c) :
    ∃ n, resolve t c = some n ∧ ∀ cmd, output t cmd (dotPath c) = found t c n cmd := by
  rw [DotFails, not_or] at hdot
  obtain ⟨n, hn⟩ := Option.ne_none_iff_exists'.mp hdot.2
  refine ⟨n, hn, fun cmd => ?_⟩
  rw [dotPath, if_neg hdot.1, output, hn]

/-! ### First characters -/

omit h in
theorem ne_errorText {x : List UInt8} (hx : x.head? = some slash) : x ≠ errorText := by
  rintro rfl
  exact absurd hx (by decide)

omit h in
theorem head?_joinParts_append (q : List (List UInt8)) (x : List UInt8) : (joinParts q ++ x).head? = some slash := by
  rw [List.head?_append, head?_joinParts]
  rfl

omit h in
include hw in
/-- A path that goes on is told from one that ends. -/
theorem joinParts_concat_append_ne (a b : List UInt8) :
    joinParts (c ++ [w]) ++ a ≠ joinParts c ++ newline :: b := by
  rw [joinParts_concat, joinPart]
  split
  · rw [List.append_assoc, List.append_assoc]
    intro heq
    have hhead := congrArg List.head? (List.append_cancel_left heq)
    exact absurd hhead (by simp [slash, newline])
  · rw [List.append_assoc]
    intro heq
    have htail := List.append_cancel_left heq
    obtain ⟨x, w', hw'⟩ := List.exists_cons_of_ne_nil hw.good.ne_nil
    rw [hw'] at htail
    have hx : x = newline := (List.cons.inj htail).1
    exact hw.newline_notMem (by rw [hw', hx]; exact List.mem_cons_self)

/-! ### Command by command -/

include hw in
theorem tree_agree_iff : output t .tree (barePath c w) = output t .tree (dotPath c) ↔ DotFails t c := by
  by_cases hdot : DotFails t c
  · rw [output_bare_of_none (by decide) (resolve_concat_of_dotFails h hw hdot), output_dot_of_fails (by decide) hdot]
    exact iff_of_true rfl hdot
  · obtain ⟨n, hn, hout⟩ := exists_of_not_dotFails hdot
    refine iff_of_false ?_ hdot
    rw [hout]
    cases hm : resolve t (c ++ [w]) with
    | none =>
      rw [output_bare_of_none (by decide) hm]
      exact (ne_errorText (head?_joinParts_append c _)).symm
    | some m =>
      rw [output_bare_of_some h hw hm]
      exact joinParts_concat_append_ne hw _ _

omit h in
theorem output_cd_of_not_dir {q : List (List UInt8)}
    (hq : ∀ n, resolve t q = some n → ¬ (t n).type = VfsType.directory.code) (cwd : List UInt8) :
    output t .cd (some q) = errorText ∧ goesTo t cwd .cd (some q) = cwd := by
  rw [output, goesTo]
  cases hn : resolve t q with
  | none => exact ⟨rfl, if_neg (by simp)⟩
  | some n =>
    dsimp only [found]
    refine ⟨if_neg (hq n hn), if_neg ?_⟩
    rintro ⟨-, m, hm, hdir⟩
    rw [← Option.some.inj hm] at hdir
    exact hq n hn hdir

omit h in
theorem output_cd_of_dir {q : List (List UInt8)} {n : Slot} (hn : resolve t q = some n)
    (hdir : (t n).type = VfsType.directory.code) (cwd : List UInt8) :
    output t .cd (some q) = [] ∧ goesTo t cwd .cd (some q) = joinParts q := by
  rw [output, goesTo, hn]
  exact ⟨if_pos hdir, if_pos ⟨rfl, n, rfl, hdir⟩⟩

include hw in
theorem cd_agree_iff : (output t .cd (barePath c w) = output t .cd (dotPath c) ∧
    goesTo t (joinParts c) .cd (barePath c w) = goesTo t (joinParts c) .cd (dotPath c)) ↔ Agree t c w .cd := by
  have hw2 := hw.length
  have hlonger : joinParts (c ++ [w]) ≠ joinParts c := by
    intro heq
    exact joinParts_concat_append_ne hw [newline] [] (by rw [heq])
  rw [Agree]
  by_cases hlong : vfsPathMax < (joinParts c).length + 2
  · rw [dotPath, if_pos hlong, barePath, if_pos (Or.inl (by omega))]
    exact iff_of_true ⟨rfl, rfl⟩ (Or.inl hlong)
  rw [dotPath, if_neg hlong, or_iff_right hlong]
  by_cases hdir : ∃ n, DirAt t c n
  · obtain ⟨n, hn⟩ := hdir
    obtain ⟨hout, hgoes⟩ := output_cd_of_dir (resolve_of_dirAt h hn) hn.2 (joinParts c)
    rw [hout, hgoes]
    refine iff_of_false ?_ fun hnone => hnone.1 n hn
    rintro ⟨hbare, hwhere⟩
    unfold barePath at hbare hwhere
    split at hbare
    · exact absurd (show errorText ++ errorText = [] from hbare) (by decide)
    · rename_i hfit
      rw [if_neg hfit] at hwhere
      by_cases hsub : ∀ m, resolve t (c ++ [w]) = some m → ¬ (t m).type = VfsType.directory.code
      · rw [(output_cd_of_not_dir hsub (joinParts c)).1] at hbare
        exact absurd hbare (by decide)
      · push Not at hsub
        obtain ⟨m, hm, hmdir⟩ := hsub
        rw [(output_cd_of_dir hm hmdir (joinParts c)).2] at hwhere
        exact hlonger hwhere
  · have hnot : ∀ n, resolve t c = some n → ¬ (t n).type = VfsType.directory.code :=
      fun n hn hd => hdir ⟨n, h.resolve_eq_some_iff.mp hn, hd⟩
    obtain ⟨hout, hgoes⟩ := output_cd_of_not_dir hnot (joinParts c)
    rw [hout, hgoes]
    rw [not_exists] at hdir
    unfold barePath
    split
    · rename_i hfit
      refine iff_of_false (fun hsame => ?_) ?_
      · exact absurd (show errorText ++ errorText = errorText from hsame.1) (by decide)
      rintro ⟨-, hfits⟩
      omega
    · rename_i hfit
      have hnone : ∀ m, resolve t (c ++ [w]) = some m → ¬ (t m).type = VfsType.directory.code := by
        intro m hm
        obtain ⟨n, hn, -⟩ := dirAt_of_resolve_concat h hm
        exact absurd hn (hdir n)
      exact iff_of_true (output_cd_of_not_dir hnone (joinParts c)) ⟨hdir, by omega⟩

/-- No line of a directory begins with a slash. -/
theorem head?_listing (n : Slot) : (listing t n).head? ≠ some slash := by
  unfold listing
  cases hchildren : children t n with
  | nil => simp
  | cons i rest =>
    have hi : i ∈ children t n := by
      rw [hchildren]
      exact List.mem_cons_self
    obtain ⟨hslot, hchild⟩ := List.mem_filter.mp hi
    rw [isChildOf, decide_eq_true_eq] at hchild
    have hgood := (h.name i (mem_slots.mp hslot) hchild.1).2
    obtain ⟨x, name, hname⟩ := List.exists_cons_of_ne_nil hgood.ne_nil
    have hx : x ≠ slash := by
      rintro rfl
      exact hgood.slash_notMem (by rw [hname]; exact List.mem_cons_self)
    rw [List.flatMap_cons, treeText, nameOf, hname]
    simpa using hx

include hw in
theorem ls_agree_iff : output t .ls (barePath c w) = output t .ls (dotPath c) ↔ Agree t c w .ls := by
  rw [Agree]
  by_cases hdot : DotFails t c
  · rw [output_bare_of_none (by decide) (resolve_concat_of_dotFails h hw hdot), output_dot_of_fails (by decide) hdot]
    exact iff_of_true rfl (Or.inl hdot)
  rw [or_iff_right hdot]
  obtain ⟨n, hn, hout⟩ := exists_of_not_dotFails hdot
  have hunique : ∀ {n'}, DirAt t c n' → n' = n := fun hn' => Option.some.inj ((resolve_of_dirAt h hn').symm.trans hn)
  rw [hout, found]
  by_cases hdir : (t n).type = VfsType.directory.code
  · have hat : DirAt t c n := ⟨h.resolve_eq_some_iff.mp hn, hdir⟩
    rw [if_pos hdir]
    cases hm : resolve t (c ++ [w]) with
    | none =>
      rw [output_bare_of_none (by decide) hm]
      constructor
      · exact fun heq => ⟨n, hat, Or.inl ⟨rfl, heq.symm⟩⟩
      · rintro ⟨n', hn', ⟨-, heq⟩ | ⟨m, hm', -⟩⟩
        · rw [← hunique hn', heq]
        · rw [resolve_of_dirAt h hm'] at hm
          cases hm
    | some m =>
      rw [output_bare_of_some h hw hm, found]
      by_cases hmdir : (t m).type = VfsType.directory.code
      · rw [if_pos hmdir]
        constructor
        · exact fun heq => ⟨n, hat, Or.inr ⟨m, ⟨h.resolve_eq_some_iff.mp hm, hmdir⟩, heq⟩⟩
        · rintro ⟨n', hn', ⟨hnone, -⟩ | ⟨m', hm', heq⟩⟩
          · cases hnone
          · rw [resolve_of_dirAt h hm'] at hm
            rw [← Option.some.inj hm, ← hunique hn', heq]
      · -- the path of the file begins with a slash
        rw [if_neg hmdir]
        refine iff_of_false (fun heq => head?_listing h n ?_) ?_
        · rw [← heq]
          exact head?_joinParts_append _ _
        · rintro ⟨n', -, ⟨hnone, -⟩ | ⟨m', hm', -⟩⟩
          · cases hnone
          · rw [resolve_of_dirAt h hm'] at hm
            exact hmdir (Option.some.inj hm ▸ hm'.2)
  · -- a file has no entries
    rw [if_neg hdir, output_bare_of_none (by decide) (resolve_concat_of_file h hn hdir)]
    refine iff_of_false (ne_errorText (head?_joinParts_append c _)).symm ?_
    rintro ⟨n', hn', -⟩
    exact hdir (hunique hn' ▸ hn'.2)

/-- The pre-order from a directory has the one from each of its entries in it. -/
theorem exists_preorder_split {n m : Slot} (hn : (links t).Path n c) (hm : m ∈ children t n) :
    ∃ before after, preorder t 16 c n =
      before ++ (c ++ [nameOf t m], m) :: preorder t 16 (c ++ [nameOf t m]) m ++ after := by
  obtain ⟨a, b, hab⟩ := List.append_of_mem hm
  rw [← preorder_of_le h (show 16 ≤ 17 by decide) hn, preorder, hab, List.flatMap_append, List.flatMap_cons]
  exact ⟨_, _, (List.append_assoc _ _ _).symm⟩

omit h in
theorem foundText_ne_errorText (q : List (List UInt8)) (n : Slot) : foundText t q n ≠ errorText := by
  unfold foundText
  cases preorder t 16 q n with
  | nil => exact (show ([] : List UInt8) ≠ errorText by decide)
  | cons v rest =>
    rw [List.flatMap_cons, List.append_assoc]
    exact ne_errorText (head?_joinParts_append v.1 _)

omit h in
/-- Every visit has a line. -/
theorem flatMap_line_length (visits : List (List (List UInt8) × Slot)) :
    visits.length ≤ (visits.flatMap fun v => joinParts v.1 ++ [newline]).length := by
  induction visits with
  | nil => exact Nat.le_refl _
  | cons v visits ih =>
    rw [List.flatMap_cons, List.length_append, List.length_append, List.length_cons, List.length_singleton]
    omega

/-- An entry has fewer lines than its directory: its own line is not among them. -/
theorem length_foundText_lt {n m : Slot} (hn : (links t).Path n c) (hm : m ∈ children t n) :
    (foundText t (c ++ [nameOf t m]) m).length < (foundText t c n).length := by
  obtain ⟨before, after, hsplit⟩ := exists_preorder_split h hn hm
  rw [foundText, foundText, hsplit]
  simp only [List.flatMap_append, List.flatMap_cons, List.length_append, List.length_singleton]
  omega

/-- The lines of a directory are that of one file if it has no other entry. -/
theorem foundText_eq_line_iff {n m : Slot} (hn : (links t).Path n c) (hm : m ∈ children t n)
    (hpath : (links t).Path m (c ++ [nameOf t m])) (hfile : ¬ (t m).type = VfsType.directory.code) :
    foundText t c n = joinParts (c ++ [nameOf t m]) ++ [newline] ↔
      preorder t 16 c n = [(c ++ [nameOf t m], m)] := by
  constructor
  · intro heq
    obtain ⟨before, after, hsplit⟩ := exists_preorder_split h hn hm
    rw [preorder_of_file h hfile hpath] at hsplit
    have hbefore := flatMap_line_length before
    have hafter := flatMap_line_length after
    have hlength := congrArg List.length heq
    rw [foundText, hsplit] at hlength
    simp only [List.flatMap_append, List.flatMap_cons, List.flatMap_nil, List.length_append, List.length_singleton,
      List.length_nil] at hlength
    have hb : before = [] := List.eq_nil_of_length_eq_zero (by omega)
    have ha : after = [] := List.eq_nil_of_length_eq_zero (by omega)
    rw [hsplit, hb, ha]
    rfl
  · intro heq
    rw [foundText, heq, List.flatMap_singleton]

include hw in
theorem find_agree_iff : output t .find (barePath c w) = output t .find (dotPath c) ↔ Agree t c w .find := by
  rw [Agree]
  by_cases hdot : DotFails t c
  · rw [output_bare_of_none (by decide) (resolve_concat_of_dotFails h hw hdot), output_dot_of_fails (by decide) hdot]
    exact iff_of_true rfl (Or.inl hdot)
  rw [or_iff_right hdot]
  obtain ⟨n, hn, hout⟩ := exists_of_not_dotFails hdot
  have hpath := h.resolve_eq_some_iff.mp hn
  have hunique : ∀ {n'}, DirAt t c n' → n' = n := fun hn' => Option.some.inj ((resolve_of_dirAt h hn').symm.trans hn)
  have honly : ∀ {n' m'}, DirAt t c n' → preorder t 16 c n' = [(c ++ [w], m')] → resolve t (c ++ [w]) = some m' := by
    intro n' m' hn' heq
    have hmem : (c ++ [w], m') ∈ preorder t 16 c n' := by rw [heq]; exact List.mem_singleton.mpr rfl
    obtain ⟨-, -, -, -, hm'⟩ := (mem_preorder_iff h hn'.1).mp hmem
    exact h.resolve_eq_some_iff.mpr hm'
  rw [hout, found]
  by_cases hdir : (t n).type = VfsType.directory.code
  · rw [if_pos hdir]
    cases hm : resolve t (c ++ [w]) with
    | none =>
      rw [output_bare_of_none (by decide) hm]
      refine iff_of_false (foundText_ne_errorText c n).symm ?_
      rintro ⟨n', m', hn', heq, -⟩
      rw [honly hn' heq] at hm
      cases hm
    | some m =>
      rw [output_bare_of_some h hw hm, found]
      obtain ⟨n', hn', hmem, hname⟩ := dirAt_of_resolve_concat h hm
      obtain rfl := hunique hn'
      subst hname
      by_cases hmdir : (t m).type = VfsType.directory.code
      · rw [if_pos hmdir]
        refine iff_of_false (fun heq => ?_) ?_
        · exact absurd (congrArg List.length heq) (Nat.ne_of_lt (length_foundText_lt h hpath hmem))
        · rintro ⟨n'', m', hn'', heq, hfile⟩
          rw [honly hn'' heq] at hm
          rw [Option.some.inj hm] at hfile
          exact (file_iff h (honly hn'' heq)).mp (Option.some.inj hm ▸ hfile) (Option.some.inj hm ▸ hmdir)
      · rw [if_neg hmdir]
        have hline := foundText_eq_line_iff h hpath hmem (h.resolve_eq_some_iff.mp hm) hmdir
        constructor
        · intro heq
          exact ⟨n', m, hn', hline.mp heq.symm, (file_iff h hm).mpr hmdir⟩
        · rintro ⟨n'', m', hn'', heq, -⟩
          rw [honly hn'' heq] at hm
          obtain rfl := Option.some.inj hm
          obtain rfl := hunique hn''
          exact (hline.mpr heq).symm
  · -- a file has no entries
    rw [if_neg hdir, output_bare_of_none (by decide) (resolve_concat_of_file h hn hdir)]
    refine iff_of_false (ne_errorText (head?_joinParts_append c _)).symm ?_
    rintro ⟨n', m', hn', -⟩
    exact hdir (hunique hn' ▸ hn'.2)

end Accidents

/-- **A command without its operand answers like the command with `.` only by accident**: exactly in the cases of
`Agree`, in every state with a canonical working directory. -/
theorem bare_operand_iff {sh : Shell} (h : Ready sh) {c : List (List UInt8)} (hc : Canonical c)
    (hcwd : sh.cwd = joinParts c) {cmd : Command} (hcmd : cmd ∈ operandOptional) {w : List UInt8}
    (hname : commandOf w = some cmd) {bare dotted : Line} (hbare : consoleWords 8 bare.chars = [w])
    (hdotted : consoleWords 8 dotted.chars = [w, [dot]]) (env : Env) (lines lines' : List (List UInt8)) :
    SameAnswer env lines lines' sh bare dotted ↔ Agree sh.fs.records c w cmd := by
  have hw := commandWord_of_commandOf hname hcmd
  rw [sameAnswer_iff h hc hcwd hcmd hname hbare hdotted, hcwd]
  have hstays : cmd ≠ .cd → goesTo sh.fs.records (joinParts c) cmd (barePath c w) =
      goesTo sh.fs.records (joinParts c) cmd (dotPath c) := by
    intro hne
    rw [goesTo_of_ne hne, goesTo_of_ne hne]
  simp only [operandOptional, List.mem_cons, List.not_mem_nil, or_false] at hcmd
  rcases hcmd with rfl | rfl | rfl | rfl
  · rw [and_iff_left (hstays (by decide))]
    exact ls_agree_iff h.inv.wf hw
  · exact cd_agree_iff h.inv.wf hw
  · rw [and_iff_left (hstays (by decide))]
    exact tree_agree_iff h.inv.wf hw
  · rw [and_iff_left (hstays (by decide))]
    exact find_agree_iff h.inv.wf hw

/-- `tree` -/
def treeBare : Line := ⟨text "tree", by decide, by decide⟩
/-- `tree .` -/
def treeDotted : Line := ⟨text "tree .", by decide, by decide⟩

/-- In a directory that is not there, both fail. -/
theorem bare_operand_absent :
    SameAnswer ⟨0, 0, 0, 0, 0⟩ [] [] ⟨(mount noDrive).2, joinParts [[97]]⟩ treeBare treeDotted :=
  (bare_operand_iff ⟨fresh_noDrive.inv_mount, _, canonical_a, rfl⟩ canonical_a rfl
    (show Command.tree ∈ operandOptional by decide) (show commandOf (text "tree") = some .tree by decide)
    (by decide) (by decide) _ _ _).mpr (Or.inr (show resolve initTable [[97]] = none by decide))

/-- `ls` -/
def lsBare : Line := ⟨text "ls", by decide, by decide⟩
/-- `ls .` -/
def lsDotted : Line := ⟨text "ls .", by decide, by decide⟩

/-- On an empty filesystem `ls .` prints nothing, and `ls` an error. -/
theorem bare_operand_differs : AnySession noDrive ⟨(mount noDrive).2, [slash]⟩ ∧
    ∀ env lines lines', ¬ SameAnswer env lines lines' ⟨(mount noDrive).2, [slash]⟩ lsBare lsDotted := by
  refine ⟨.init, fun env lines lines' hsame => ?_⟩
  have hready : Ready ⟨(mount noDrive).2, [slash]⟩ := (Session.init : AnySession noDrive _).ready fresh_noDrive
  rw [sameAnswer_iff hready canonical_nil rfl (show Command.ls ∈ operandOptional by decide)
    (show commandOf (text "ls") = some .ls by decide) (by decide) (by decide)] at hsame
  have hdiffer : output initTable .ls (barePath [] (text "ls")) ≠ output initTable .ls (dotPath []) := by decide
  exact hdiffer hsame.1

end MinOS.Console
