/-
# MinOS.Console.Session — command lines one after the other.

Every command that is given words of at most 127 characters and a canonical working directory comes to its end
without leaving a buffer; it makes at most one call that changes the filesystem, or it changes the working
directory to a directory that is there (`dispatch_ok`). Everything about whole sessions follows from that: the
working directory stays canonical, and it stays there unless it is removed by an `rmdir` of its own path.
-/
import MinOS.Console.Walk
import MinOS.Vfs.PathStores

namespace MinOS.Console

open MinOS.Vfs MinOS.Ata NameTree Machine

/-- A line of at most `COMMAND_MAX` characters -/
structure Line where
  chars : List UInt8
  nul_notMem : 0 ∉ chars
  length_le : chars.length ≤ commandMax

/-! ## Words -/

theorem mem_consoleWords (max : Nat) : ∀ {line word : List UInt8}, word ∈ consoleWords max line →
    word ≠ [] ∧ word.Sublist line ∧ space ∉ word := by
  induction max with
  | zero => exact fun h => absurd h List.not_mem_nil
  | succ max ih =>
    intro line word h
    rw [consoleWords] at h
    split at h
    · exact absurd h List.not_mem_nil
    · rename_i hne
      have hstart : (line.dropWhile (· = space)).Sublist line := List.dropWhile_sublist _
      rcases List.mem_cons.mp h with rfl | h
      · refine ⟨?_, (List.takeWhile_sublist _).trans hstart, ?_⟩
        · -- the first character is no space
          obtain ⟨c, rest, hc⟩ := List.exists_cons_of_ne_nil hne
          have hhead := List.head?_dropWhile_not (· = space) line
          rw [hc] at hhead
          have hcs : ¬ c = space := by simpa using hhead
          rw [hc, List.takeWhile_cons_of_pos (by simpa using hcs)]
          exact List.cons_ne_nil _ _
        · intro hmem
          have := List.mem_takeWhile_imp hmem
          simp at this
      · obtain ⟨hne', hsub, hspace⟩ := ih h
        exact ⟨hne', hsub.trans ((List.tail_sublist _).trans ((List.dropWhile_sublist _).trans hstart)), hspace⟩

/-- Words that `vfs_normalize` can be given -/
def Words (argv : List (List UInt8)) : Prop := ∀ w ∈ argv, w ≠ [] ∧ 0 ∉ w ∧ w.length ≤ vfsPathMax

theorem words_of_line (line : Line) (max : Nat) : Words (consoleWords max line.chars) := by
  intro w hw
  obtain ⟨hne, hsub, -⟩ := mem_consoleWords max hw
  exact ⟨hne, fun h0 => line.nul_notMem (hsub.subset h0), hsub.length_le.trans line.length_le⟩

/-! ## Sound effects -/

/-- An absolute path of at most `VFS_PATH_MAX` characters that `vfs_normalize` maps to itself -/
def IsCanonicalPath (path : List UInt8) : Prop :=
  path.head? = some slash ∧ path.length ≤ vfsPathMax ∧ ∀ cwd, vfsNormalize cwd path = .ok (some path)

theorem isCanonicalPath_joinParts {c : List (List UInt8)} (hc : Canonical c) : IsCanonicalPath (joinParts c) :=
  ⟨head?_joinParts c, hc.length_le, fun cwd => vfsNormalize_joinParts hc cwd⟩

/-- What `parent_and_name` looks up -/
def parentPath (path : List UInt8) : List UInt8 :=
  let split := lastSlash path.tail 1 0
  if split = 0 then [slash] else path.take split

/-- The calls of `vfs_normalize` stay in their buffers, and the VFS is given canonical paths. A call of the VFS
normalises its path (`find`) and the path of the directory above it (`parent_and_name`). -/
def Effect.Sound : Effect → Prop
  | .normalize cwd path => InBounds cwd path
  | .call path => IsCanonicalPath path ∧ InBounds [slash] path ∧ InBounds [slash] (parentPath path)
  | _ => True

/-- All of them -/
def Sound (effects : List Effect) : Prop := ∀ e ∈ effects, e.Sound

@[simp] theorem sound_nil : Sound [] := fun _ h => absurd h List.not_mem_nil

@[simp] theorem sound_cons_iff {e : Effect} {effects : List Effect} :
    Sound (e :: effects) ↔ e.Sound ∧ Sound effects := List.forall_mem_cons

@[simp] theorem sound_append_iff {a b : List Effect} : Sound (a ++ b) ↔ Sound a ∧ Sound b :=
  List.forall_mem_append

@[simp] theorem sound_consolePuts (x : List UInt8) : Sound (consolePuts x) := by
  intro e he
  obtain ⟨c, -, rfl⟩ := List.mem_map.mp he
  trivial

@[simp] theorem sound_consoleError : Sound consoleError := sound_consolePuts _

@[simp] theorem sound_report (rc : Int) : Sound (report rc) := by
  unfold report
  split
  · exact sound_consoleError
  · exact sound_nil

@[simp] theorem sound_consolePutU64 (v : UInt64) : Sound (consolePutU64 v) := by
  unfold consolePutU64
  split
  · exact sound_cons_iff.mpr ⟨trivial, sound_nil⟩
  · exact sound_consolePuts _

@[simp] theorem sound_putc (c : UInt8) : (Effect.putc c).Sound := trivial

theorem sound_entryLine (e : VfsDirent) : Sound (entryLine e) := by
  unfold entryLine
  split <;> simp

theorem sound_flatMap {α : Type} {l : List α} {f : α → List Effect} (h : ∀ a ∈ l, Sound (f a)) :
    Sound (l.flatMap f) := by
  intro e he
  obtain ⟨a, ha, hea⟩ := List.mem_flatMap.mp he
  exact h a ha e hea

theorem inBounds_joinParts {c : List (List UInt8)} (h : Canonical c) : InBounds [slash] (joinParts c) :=
  inBounds_of_pathArg canonical_nil.arg h.arg

/-- Calls on canonical paths are sound. -/
theorem sound_call {c : List (List UInt8)} (h : Canonical c) : (Effect.call (joinParts c)).Sound := by
  refine ⟨isCanonicalPath_joinParts h, inBounds_joinParts h, ?_⟩
  rcases List.eq_nil_or_concat' c with rfl | ⟨q, x, rfl⟩
  · exact inBounds_joinParts canonical_nil
  · have hparent : parentPath (joinParts (q ++ [x])) = joinParts q := (split_joinParts h).2
    rw [hparent]
    exact inBounds_joinParts h.dropLast

/-! ## One command -/

/-- What a session keeps -/
structure Ready (sh : Shell) : Prop where
  inv : Inv sh.fs
  cwd : ∃ c, Canonical c ∧ sh.cwd = joinParts c

/-- The words are an `rmdir` of this path. -/
def Removes (cwd : List UInt8) (argv : List (List UInt8)) (path : List UInt8) : Prop :=
  ∃ name arg rest, argv = name :: arg :: rest ∧ commandOf name = some .rmdir ∧
    vfsNormalize cwd arg = .ok (some path)

/-- All a command can do to the filesystem and the working directory -/
inductive Changes (sh : Shell) (argv : List (List UInt8)) : Shell → Prop
  | nothing : Changes sh argv sh
  | call {op : Op} {r : Reply} {fs : State} (hstep : step sh.fs op = .ok (r, fs))
      (hrmdir : ∀ p, op = .rmdir p → Removes sh.cwd argv p.chars ∧ ∃ c, Canonical c ∧ p.chars = joinParts c) :
      Changes sh argv { sh with fs }
  | cd {q : List (List UInt8)} {n : Slot} (hq : (links sh.fs.records).Path n q)
      (hd : (sh.fs.records n).type = VfsType.directory.code) : Changes sh argv { sh with cwd := joinParts q }

/-- A command comes to its end, soundly, with one of these changes. -/
def Ends (sh : Shell) (argv : List (List UInt8)) (x : Except Fault (List Effect × Shell)) : Prop :=
  ∃ effects sh', x = .ok (effects, sh') ∧ Sound effects ∧ Changes sh argv sh'

theorem ends_nothing {sh : Shell} {argv : List (List UInt8)} {effects : List Effect} (h : Sound effects) :
    Ends sh argv (.ok (effects, sh)) := ⟨effects, sh, rfl, h, .nothing⟩

section OneCommand

variable {sh : Shell} (h : Ready sh) {argv : List (List UInt8)} (hargv : Words argv)
include h hargv

/-- `console_arg` prints an error, or gives a canonical path. -/
theorem consoleArg_cases (n : Nat) :
    (∃ effects, consoleArg sh.cwd argv n = .ok (effects, none) ∧ Sound effects) ∨
    ∃ q arg, Canonical q ∧ argv[n]? = some arg ∧ vfsNormalize sh.cwd arg = .ok (some (joinParts q)) ∧
      consoleArg sh.cwd argv n = .ok ([.normalize sh.cwd arg], some (joinParts q)) ∧
      Sound [.normalize sh.cwd arg] := by
  obtain ⟨c, hc, hcwd⟩ := h.cwd
  unfold consoleArg
  cases harg : argv[n]? with
  | none => exact Or.inl ⟨_, rfl, sound_consoleError⟩
  | some arg =>
    obtain ⟨hne, hnul, hlen⟩ := hargv arg (List.mem_of_getElem? harg)
    have hbounds : InBounds sh.cwd arg := by
      rw [hcwd]
      exact inBounds_of_pathArg hc.arg ⟨arg, hnul, hlen⟩
    obtain ⟨r, hr⟩ := exists_vfsNormalize hc.arg ⟨arg, hnul, hlen⟩
    have hr' : vfsNormalize sh.cwd arg = .ok r := by
      rw [hcwd]
      exact hr
    dsimp only
    rw [hr', ok_bind]
    cases r with
    | none => exact Or.inl ⟨_, rfl, sound_cons_iff.mpr ⟨hbounds, sound_consoleError⟩⟩
    | some path =>
      obtain ⟨q, hq, rfl⟩ := canonical_of_vfsNormalize hr
      exact Or.inr ⟨q, arg, hq, rfl, hr', rfl, sound_cons_iff.mpr ⟨hbounds, sound_nil⟩⟩

/-- What an operand normalises to is canonical. -/
theorem canonical_of_operand {arg path : List UInt8} (harg : arg ∈ argv)
    (hnorm : vfsNormalize sh.cwd arg = .ok (some path)) : ∃ q, Canonical q ∧ path = joinParts q := by
  obtain ⟨c, hc, hcwd⟩ := h.cwd
  obtain ⟨-, hnul, hlen⟩ := hargv arg harg
  have hnorm' : vfsNormalize hc.arg.chars (⟨arg, hnul, hlen⟩ : PathArg).chars = .ok (some path) := by
    rw [show hc.arg.chars = sh.cwd from hcwd.symm]
    exact hnorm
  exact canonical_of_vfsNormalize hnorm'

end OneCommand

theorem consoleArg_eq {cwd arg path : List UInt8} {argv : List (List UInt8)} {n : Nat} (harg : argv[n]? = some arg)
    (hnorm : vfsNormalize cwd arg = .ok (some path)) :
    consoleArg cwd argv n = .ok ([.normalize cwd arg], some path) := by
  rw [consoleArg, harg]
  dsimp only
  rw [hnorm, ok_bind]

/-- An operand that is a canonical path is the path itself. -/
theorem consoleArg_joinParts {q : List (List UInt8)} (hq : Canonical q) (cwd : List UInt8)
    {argv : List (List UInt8)} {n : Nat} (harg : argv[n]? = some (joinParts q)) :
    consoleArg cwd argv n = .ok ([.normalize cwd (joinParts q)], some (joinParts q)) :=
  consoleArg_eq harg (vfsNormalize_joinParts hq cwd)

theorem onPath_joinParts {f : State → List UInt8 → Except Fault (Int × State)} {sh : Shell}
    {argv : List (List UInt8)} {q : List (List UInt8)} (hq : Canonical q) (harg : argv[1]? = some (joinParts q))
    {rc : Int} {fs : State} (hf : f sh.fs (joinParts q) = .ok (rc, fs)) : onPath f sh argv =
      .ok ([.normalize sh.cwd (joinParts q)] ++ .call (joinParts q) :: report rc, { sh with fs }) := by
  rw [onPath, consoleArg_joinParts hq sh.cwd harg, ok_bind]
  dsimp only
  rw [hf, ok_bind]

/-- The branch a line takes -/
theorem execute_eq {line name : List UInt8} {rest : List (List UInt8)} {c : Command}
    (hwords : consoleWords 8 line = name :: rest) (hname : commandOf name = some c) (env : Env)
    (lines : List (List UInt8)) (sh : Shell) :
    consoleCommandLine env lines sh line = branch env lines sh (name :: rest) c := by
  rw [consoleCommandLine, hwords, consoleCommandWords, hname]

/-- Every call returns. -/
theorem Ready.code {sh : Shell} (h : Ready sh) (op : Op) {f : Except Fault (Int × State)}
    (hop : step sh.fs op = f >>= fun a => pure (a.map Reply.code id)) :
    ∃ rc fs, f = .ok (rc, fs) ∧ step sh.fs op = .ok (.code rc, fs) := by
  obtain ⟨r, fs, hstep, -⟩ := h.inv.wf.step_micros op
  have hstep' := hstep
  rw [hop] at hstep'
  obtain ⟨rc, hf, rfl⟩ := reply_eq_ok_iff.mp hstep'
  exact ⟨rc, fs, hf, hstep⟩

section Families

variable {sh : Shell} (h : Ready sh) {argv : List (List UInt8)} (hargv : Words argv)
include h hargv

/-- `mkdir`, `touch`, `rm`, `rmdir` -/
theorem ends_onPath (op : PathArg → Op) {f : State → List UInt8 → Except Fault (Int × State)}
    (hop : ∀ s p, step s (op p) = f s p.chars >>= fun a => pure (a.map Reply.code id))
    (hrmdir : ∀ p q arg, op p = .rmdir q → argv[1]? = some arg →
      vfsNormalize sh.cwd arg = .ok (some p.chars) → q = p ∧ Removes sh.cwd argv p.chars) :
    Ends sh argv (onPath f sh argv) := by
  unfold onPath
  obtain ⟨effects, hcase, hsound⟩ | ⟨q, arg, hq, harg, hnorm, hcase, hsound⟩ := consoleArg_cases h hargv 1
  · rw [hcase, ok_bind]
    exact ends_nothing hsound
  · obtain ⟨rc, fs, hf, hstep⟩ := h.code (op hq.arg) (hop sh.fs hq.arg)
    have hf' : f sh.fs (joinParts q) = .ok (rc, fs) := hf
    rw [hcase, ok_bind]
    dsimp only
    rw [hf', ok_bind]
    refine ⟨_, _, rfl, ?_, .call hstep fun p hp => ?_⟩
    · exact sound_append_iff.mpr ⟨hsound, sound_cons_iff.mpr ⟨sound_call hq, sound_report rc⟩⟩
    · obtain ⟨rfl, hremoves⟩ := hrmdir _ p arg hp harg hnorm
      exact ⟨hremoves, q, hq, rfl⟩

/-- `cp`, `mv` -/
theorem ends_onPaths (op : PathArg → PathArg → Op)
    {f : State → List UInt8 → List UInt8 → Except Fault (Int × State)}
    (hop : ∀ s p q, step s (op p q) = f s p.chars q.chars >>= fun a => pure (a.map Reply.code id))
    (hrmdir : ∀ p q r, op p q ≠ .rmdir r) : Ends sh argv (onPaths f sh argv) := by
  unfold onPaths
  split
  · exact ends_nothing sound_nil
  obtain ⟨effects, hcase, hsound⟩ | ⟨q, arg, hq, -, -, hcase, hsound⟩ := consoleArg_cases h hargv 1
  · rw [hcase, ok_bind]
    exact ends_nothing hsound
  rw [hcase, ok_bind]
  dsimp only
  obtain ⟨effects', hcase', hsound'⟩ | ⟨q', arg', hq', -, -, hcase', hsound'⟩ := consoleArg_cases h hargv 2
  · rw [hcase', ok_bind]
    exact ends_nothing (sound_append_iff.mpr ⟨hsound, hsound'⟩)
  · obtain ⟨rc, fs, hf, hstep⟩ := h.code (op hq.arg hq'.arg) (hop sh.fs hq.arg hq'.arg)
    have hf' : f sh.fs (joinParts q) (joinParts q') = .ok (rc, fs) := hf
    rw [hcase', ok_bind]
    dsimp only
    rw [hf', ok_bind]
    refine ⟨_, _, rfl, ?_, .call hstep fun p hp => absurd hp (hrmdir _ _ p)⟩
    refine sound_append_iff.mpr ⟨hsound, sound_append_iff.mpr ⟨hsound', ?_⟩⟩
    exact sound_cons_iff.mpr ⟨sound_call hq, sound_cons_iff.mpr ⟨sound_call hq', sound_report rc⟩⟩

/-- `write`, `append` -/
theorem ends_onText (append : Bool) : Ends sh argv (onText append sh argv) := by
  unfold onText
  split
  · exact ends_nothing sound_consoleError
  obtain ⟨effects, hcase, hsound⟩ | ⟨q, arg, hq, -, -, hcase, hsound⟩ := consoleArg_cases h hargv 1
  · rw [hcase, ok_bind]
    exact ends_nothing (sound_append_iff.mpr ⟨hsound, sound_consoleError⟩)
  · obtain ⟨rc, fs, hf, hstep⟩ := h.code (.write hq.arg (assemble (argv.drop 2) [] true) append) rfl
    have hf' : vfsWrite sh.fs (joinParts q) (assemble (argv.drop 2) [] true) append = .ok (rc, fs) := hf
    rw [hcase, ok_bind]
    dsimp only
    rw [hf', ok_bind]
    refine ⟨_, _, rfl, ?_, .call hstep fun p hp => absurd hp (by simp)⟩
    exact sound_append_iff.mpr ⟨hsound, sound_cons_iff.mpr ⟨sound_call hq, sound_report rc⟩⟩

/-- `cat` -/
theorem ends_concatenate : Ends sh argv (concatenate sh argv) := by
  unfold concatenate
  obtain ⟨effects, hcase, hsound⟩ | ⟨q, arg, hq, -, -, hcase, hsound⟩ := consoleArg_cases h hargv 1
  · rw [hcase, ok_bind]
    exact ends_nothing hsound
  obtain ⟨r, fs, hstep, -⟩ := h.inv.wf.step_micros (.read hq.arg 127)
  obtain ⟨data, hread, rfl⟩ := reply_eq_ok_iff.mp hstep
  have hread' : vfsRead sh.fs (joinParts q) 127 = .ok (data, fs) := hread
  rw [hcase, ok_bind]
  dsimp only
  rw [hread', ok_bind]
  have hchange : Changes sh argv { sh with fs } := .call hstep fun p hp => absurd hp (by simp)
  cases data with
  | none =>
    refine ⟨_, _, rfl, ?_, hchange⟩
    exact sound_append_iff.mpr ⟨hsound, sound_cons_iff.mpr ⟨sound_call hq, sound_consoleError⟩⟩
  | some data =>
    refine ⟨_, _, rfl, ?_, hchange⟩
    refine sound_append_iff.mpr ⟨hsound, sound_cons_iff.mpr ⟨sound_call hq, ?_⟩⟩
    simp

end Families

/-! ## Listings -/

section Queries

variable {s : State} (h : Wf s.records)
include h

theorem vfsStatPath_joinParts {q : List (List UInt8)} (hq : Canonical q) :
    vfsStatPath s (joinParts q) = .ok ((resolve s.records q).map fun n =>
      ⟨(s.records n).type, (s.records n).size⟩) := by
  have hstat := h.stat_eq hq.arg
  rw [show hq.arg.chars = joinParts q from rfl, lookup, canon_joinParts hq, Option.bind_some] at hstat
  exact hstat

theorem vfsIsDirectory_joinParts {q : List (List UInt8)} (hq : Canonical q) :
    vfsIsDirectory s (joinParts q) = .ok (decide (∃ n,
      resolve s.records q = some n ∧ (s.records n).type = VfsType.directory.code)) := by
  have hdir := h.isDirectory_eq hq.arg
  rw [show hq.arg.chars = joinParts q from rfl, lookup, canon_joinParts hq, Option.bind_some] at hdir
  exact hdir

/-- What `console_list` does: the entries of a directory, the path of a file, an error -/
theorem consoleList_eq {q : List (List UInt8)} (hq : Canonical q) :
    consoleList s (joinParts q) = .ok (.call (joinParts q) :: match resolve s.records q with
      | none => consoleError
      | some n =>
        if (s.records n).type = VfsType.file.code then consolePuts (joinParts q) ++ [.putc newline]
        else .call (joinParts q) ::
          (children s.records n).flatMap fun i => entryLine (direntOf (s.records i))) := by
  rw [consoleList, vfsStatPath_joinParts h hq, ok_bind]
  cases hn : resolve s.records q with
  | none => rfl
  | some n =>
    have hp := h.resolve_eq_some_iff.mp hn
    dsimp only [Option.map_some]
    by_cases hf : (s.records n).type = VfsType.file.code
    · rw [if_pos hf, if_pos hf]
    · have hd := (h.type n (h.path_used hp)).resolve_right hf
      rw [if_neg hf, if_neg hf, vfsList_joinParts h hp hd, ok_bind]
      dsimp only
      rw [List.flatMap_map]

theorem sound_treeEffects (fuel : Nat) : ∀ (depth : Nat) {p : List (List UInt8)} {n : Slot},
    (links s.records).Path n p → Sound (treeEffects s.records fuel depth p n) := by
  induction fuel with
  | zero => exact fun _ _ _ _ => sound_nil
  | succ fuel ih =>
    intro depth p n hp
    refine sound_cons_iff.mpr ⟨sound_call (h.canonical_of_path hp), sound_flatMap fun i hi => ?_⟩
    have hline : Sound (treeLine s.records depth i) := by
      refine sound_append_iff.mpr ⟨?_, sound_entryLine _⟩
      intro e he
      obtain ⟨l, hl, hel⟩ := List.mem_flatten.mp he
      rw [List.eq_of_mem_replicate hl] at hel
      exact sound_consolePuts _ e hel
    refine sound_append_iff.mpr ⟨hline, ?_⟩
    split
    · exact ih (depth + 1) (path_of_mem_children h hp hi)
    · exact sound_nil

theorem sound_findEffects (needle : List UInt8) (fuel : Nat) : ∀ {p : List (List UInt8)} {n : Slot},
    (links s.records).Path n p → Sound (findEffects s.records needle fuel p n) := by
  induction fuel with
  | zero => exact fun _ => sound_nil
  | succ fuel ih =>
    intro p n hp
    refine sound_cons_iff.mpr ⟨sound_call (h.canonical_of_path hp), sound_flatMap fun i hi => ?_⟩
    refine sound_append_iff.mpr ⟨?_, ?_⟩
    · unfold findLine
      split <;> simp
    · split
      · exact ih (path_of_mem_children h hp hi)
      · exact sound_nil

end Queries

section Listings

variable {sh : Shell} (h : Ready sh) {argv : List (List UInt8)} (hargv : Words argv)
include h hargv

theorem ends_list : Ends sh argv (list sh argv) := by
  unfold list
  obtain ⟨effects, hcase, hsound⟩ | ⟨q, arg, hq, -, -, hcase, hsound⟩ :=
    consoleArg_cases h hargv (operand argv)
  · rw [hcase, ok_bind]
    exact ends_nothing hsound
  rw [hcase, ok_bind]
  dsimp only
  rw [consoleList_eq h.inv.wf hq, ok_bind]
  refine ends_nothing (sound_append_iff.mpr ⟨hsound, sound_cons_iff.mpr ⟨sound_call hq, ?_⟩⟩)
  split
  · exact sound_consoleError
  split
  · simp
  · exact sound_cons_iff.mpr ⟨sound_call hq, sound_flatMap fun i _ => sound_entryLine _⟩

theorem ends_changeDirectory : Ends sh argv (changeDirectory sh argv) := by
  unfold changeDirectory
  obtain ⟨effects, hcase, hsound⟩ | ⟨q, arg, hq, -, -, hcase, hsound⟩ :=
    consoleArg_cases h hargv (operand argv)
  · rw [hcase, ok_bind]
    exact ends_nothing (sound_append_iff.mpr ⟨hsound, sound_consoleError⟩)
  rw [hcase, ok_bind]
  dsimp only
  rw [vfsIsDirectory_joinParts h.inv.wf hq, ok_bind]
  split
  · rename_i hdir
    obtain ⟨n, hn, hd⟩ := of_decide_eq_true hdir
    refine ⟨_, _, rfl, ?_, .cd (h.inv.wf.resolve_eq_some_iff.mp hn) hd⟩
    exact sound_append_iff.mpr ⟨hsound, sound_cons_iff.mpr ⟨sound_call hq, sound_nil⟩⟩
  · exact ends_nothing (sound_append_iff.mpr ⟨hsound, sound_cons_iff.mpr ⟨sound_call hq, sound_consoleError⟩⟩)

theorem ends_tree : Ends sh argv (tree sh argv) := by
  unfold tree
  obtain ⟨effects, hcase, hsound⟩ | ⟨q, arg, hq, -, -, hcase, hsound⟩ :=
    consoleArg_cases h hargv (operand argv)
  · rw [hcase, ok_bind]
    exact ends_nothing hsound
  rw [hcase, ok_bind]
  dsimp only
  rw [vfsStatPath_joinParts h.inv.wf hq, ok_bind]
  cases hn : resolve sh.fs.records q with
  | none =>
    exact ends_nothing (sound_append_iff.mpr ⟨hsound, sound_cons_iff.mpr ⟨sound_call hq, sound_consoleError⟩⟩)
  | some n =>
    have hp := h.inv.wf.resolve_eq_some_iff.mp hn
    dsimp only [Option.map_some]
    split
    · rename_i hd
      rw [consoleTreeWalk_eq h.inv.wf 16 0 hp hd, ok_bind]
      refine ends_nothing (sound_append_iff.mpr ⟨hsound, sound_cons_iff.mpr ⟨sound_call hq, ?_⟩⟩)
      refine sound_append_iff.mpr ⟨sound_consolePuts _, sound_cons_iff.mpr ⟨trivial, ?_⟩⟩
      exact sound_treeEffects h.inv.wf 16 0 hp
    · refine ends_nothing (sound_append_iff.mpr ⟨hsound, sound_cons_iff.mpr ⟨sound_call hq, ?_⟩⟩)
      exact sound_append_iff.mpr ⟨sound_consolePuts _, sound_cons_iff.mpr ⟨trivial, sound_nil⟩⟩

theorem ends_search : Ends sh argv (search sh argv) := by
  unfold search
  obtain ⟨effects, hcase, hsound⟩ | ⟨q, arg, hq, -, -, hcase, hsound⟩ :=
    consoleArg_cases h hargv (operand argv)
  · rw [hcase, ok_bind]
    exact ends_nothing hsound
  rw [hcase, ok_bind]
  dsimp only
  rw [vfsStatPath_joinParts h.inv.wf hq, ok_bind]
  cases hn : resolve sh.fs.records q with
  | none =>
    exact ends_nothing (sound_append_iff.mpr ⟨hsound, sound_cons_iff.mpr ⟨sound_call hq, sound_consoleError⟩⟩)
  | some n =>
    have hp := h.inv.wf.resolve_eq_some_iff.mp hn
    dsimp only [Option.map_some]
    split
    · refine ends_nothing (sound_append_iff.mpr ⟨hsound, sound_cons_iff.mpr ⟨sound_call hq, ?_⟩⟩)
      split <;> simp
    · rename_i hf
      have hd := (h.inv.wf.type n (h.inv.wf.path_used hp)).resolve_right hf
      rw [consoleFindWalk_eq h.inv.wf _ 16 hp hd, ok_bind]
      refine ends_nothing (sound_append_iff.mpr ⟨hsound, sound_cons_iff.mpr ⟨sound_call hq, ?_⟩⟩)
      exact sound_findEffects h.inv.wf _ 16 hp

end Listings

/-! ## Every command -/

theorem sound_printHistory (lines : List (List UInt8)) (i : Nat) : Sound (printHistory lines i) := by
  induction lines generalizing i with
  | nil => exact sound_nil
  | cons line lines ih => simp [printHistory, ih]

/-- **Every command ends soundly.** -/
theorem dispatch_ok {sh : Shell} (h : Ready sh) {argv : List (List UInt8)} (hargv : Words argv) (env : Env)
    (lines : List (List UInt8)) : Ends sh argv (consoleCommandWords env lines sh argv) := by
  cases argv with
  | nil => exact ends_nothing sound_nil
  | cons name rest =>
    rw [consoleCommandWords]
    cases hname : commandOf name with
    | none => exact ends_nothing (sound_consolePuts _)
    | some c =>
      dsimp only
      cases c with
      | help | about | pwd | df | echo => exact ends_nothing (by simp [echo])
      | mem | ticks | uptime => exact ends_nothing (by simp)
      | clear | reboot | shutdown => exact ends_nothing (sound_cons_iff.mpr ⟨trivial, sound_nil⟩)
      | history => exact ends_nothing (sound_printHistory lines 0)
      | ls => exact ends_list h hargv
      | cd => exact ends_changeDirectory h hargv
      | mkdir => exact ends_onPath h hargv .mkdir (fun _ _ => rfl) fun _ _ _ hp => nomatch hp
      | touch => exact ends_onPath h hargv .touch (fun _ _ => rfl) fun _ _ _ hp => nomatch hp
      | rm => exact ends_onPath h hargv .remove (fun _ _ => rfl) fun _ _ _ hp => nomatch hp
      | rmdir =>
        apply ends_onPath h hargv .rmdir (fun _ _ => rfl)
        intro p q arg hp harg hnorm
        obtain rfl := Op.rmdir.inj hp
        refine ⟨rfl, ?_⟩
        cases rest with
        | nil => simp at harg
        | cons x rest =>
          obtain rfl : x = arg := by simpa using harg
          exact ⟨name, x, rest, rfl, hname, hnorm⟩
      | cat => exact ends_concatenate h hargv
      | write => exact ends_onText h hargv false
      | append => exact ends_onText h hargv true
      | cp => exact ends_onPaths h hargv .copy (fun _ _ _ => rfl) fun _ _ _ hp => nomatch hp
      | mv => exact ends_onPaths h hargv .move (fun _ _ _ => rfl) fun _ _ _ hp => nomatch hp
      | tree => exact ends_tree h hargv
      | find => exact ends_search h hargv

/-! ## Sessions -/

/-- The states of a session that starts on the drive `d` and enters lines where `mayEnter` allows them. The
counters and the stored history are arbitrary at every line; after a `reboot` or a `shutdown` nothing is
entered. -/
inductive Session (mayEnter : Shell → Line → Prop) (d : Drive) : Shell → Prop
  | init : Session mayEnter d ⟨(mount d).2, [slash]⟩
  | enter {sh sh' : Shell} {line : Line} {env : Env} {lines : List (List UInt8)} {effects : List Effect}
      (h : Session mayEnter d sh) (hmay : mayEnter sh line)
      (hexec : consoleCommandLine env lines sh line.chars = .ok (effects, sh')) (hhalt : .halt ∉ effects) :
      Session mayEnter d sh'

/-- A session without restrictions -/
abbrev AnySession (d : Drive) : Shell → Prop := Session (fun _ _ => True) d

theorem execute_ok {sh : Shell} (h : Ready sh) (line : Line) (env : Env) (lines : List (List UInt8)) :
    Ends sh (consoleWords 8 line.chars) (consoleCommandLine env lines sh line.chars) :=
  dispatch_ok h (words_of_line line 8) env lines

/-- What a line that was executed has changed -/
theorem changes_of_execute {sh sh' : Shell} (h : Ready sh) {line : Line} {env : Env} {lines : List (List UInt8)}
    {effects : List Effect} (hexec : consoleCommandLine env lines sh line.chars = .ok (effects, sh')) :
    Sound effects ∧ Changes sh (consoleWords 8 line.chars) sh' := by
  obtain ⟨effects', sh'', heq, hsound, hchanges⟩ := execute_ok h line env lines
  rw [hexec] at heq
  obtain ⟨rfl, rfl⟩ := Prod.mk.inj (Except.ok.inj heq)
  exact ⟨hsound, hchanges⟩

theorem Changes.ready {sh sh' : Shell} {argv : List (List UInt8)} (hc : Changes sh argv sh') (h : Ready sh) :
    Ready sh' := by
  cases hc with
  | nothing => exact h
  | call hstep => exact ⟨(h.inv.micros hstep).inv h.inv, h.cwd⟩
  | cd hq => exact ⟨h.inv, _, h.inv.wf.canonical_of_path hq, rfl⟩

/-- **Every state of a session is ready for the next line.** -/
theorem Session.ready {mayEnter : Shell → Line → Prop} {d : Drive} (hd : Fresh d) {sh : Shell}
    (hs : Session mayEnter d sh) : Ready sh := by
  induction hs with
  | init => exact ⟨hd.inv_mount, [], canonical_nil, rfl⟩
  | enter _ _ hexec _ ih => exact (changes_of_execute ih hexec).2.ready ih

/-! ### Lines with one path -/

theorem halt_notMem_report (rc : Int) : .halt ∉ report rc := by
  unfold report
  split <;> simp [consoleError, consolePuts]

section OneLine

variable {mayEnter : Shell → Line → Prop} {d : Drive} {sh : Shell} (hs : Session mayEnter d sh) (line : Line)
  (hmay : mayEnter sh line) {name : List UInt8} {q : List (List UInt8)} (hq : Canonical q)
  (hwords : consoleWords 8 line.chars = [name, joinParts q])
include hs hmay hq hwords

/-- A session goes on with a line that makes one call. -/
theorem Session.onPath {cmd : Command} {f : State → List UInt8 → Except Fault (Int × State)}
    (hname : commandOf name = some cmd)
    (hbranch : ∀ env lines sh argv, branch env lines sh argv cmd = Console.onPath f sh argv)
    {rc : Int} {fs : State} (hf : f sh.fs (joinParts q) = .ok (rc, fs)) : Session mayEnter d { sh with fs } := by
  have hexec := execute_eq hwords hname ⟨0, 0, 0, 0, 0⟩ [] sh
  rw [hbranch, onPath_joinParts hq rfl hf] at hexec
  exact .enter hs hmay hexec (by simp [halt_notMem_report])

/-- It goes on with a `cd` to a directory. -/
theorem Session.changeDirectory (hname : commandOf name = some .cd)
    (hdir : vfsIsDirectory sh.fs (joinParts q) = .ok true) :
    Session mayEnter d { sh with cwd := joinParts q } := by
  have hexec := execute_eq hwords hname ⟨0, 0, 0, 0, 0⟩ [] sh
  rw [branch, Console.changeDirectory, consoleArg_joinParts hq _ rfl, ok_bind] at hexec
  dsimp only at hexec
  rw [hdir, ok_bind] at hexec
  exact .enter hs hmay hexec (by simp)

end OneLine

/-- `mkdir /a` -/
def mkdirA : Line := ⟨text "mkdir /a", by decide, by decide⟩
/-- `touch /a/b` -/
def touchAB : Line := ⟨text "touch /a/b", by decide, by decide⟩
/-- `cd /a` -/
def cdA : Line := ⟨text "cd /a", by decide, by decide⟩

theorem canonical_a : Canonical [[97]] := by
  refine ⟨?_, by decide, by decide⟩
  intro x hx
  obtain rfl := List.mem_singleton.mp hx
  exact ⟨by decide, by decide, by decide, by decide, by decide, by decide⟩

theorem canonical_ab : Canonical [[97], [98]] := by
  refine ⟨?_, by decide, by decide⟩
  intro x hx
  obtain rfl | rfl := List.mem_pair.mp hx <;>
    exact ⟨by decide, by decide, by decide, by decide, by decide, by decide⟩

/-- A session in `/a`, with a file in it -/
theorem exists_session_nested : ∃ fs, fs.records = nestedTable ∧
    AnySession (blankDisk 65536) ⟨fs, joinParts [[97]]⟩ := by
  have hd := fresh_blankDisk 65536
  obtain ⟨r₁, s₁, r₂, s₂, hmkdir, -, htouch, -, hrec⟩ := exists_nested hd
  obtain ⟨_, hmkdir, -⟩ := reply_eq_ok_iff.mp hmkdir
  obtain ⟨_, htouch, -⟩ := reply_eq_ok_iff.mp htouch
  have hs₁ : AnySession (blankDisk 65536) ⟨s₁, [slash]⟩ := Session.onPath .init mkdirA trivial canonical_a
    (by decide) (show commandOf (text "mkdir") = some .mkdir by decide) (fun _ _ _ _ => rfl) hmkdir
  have hs₂ : AnySession (blankDisk 65536) ⟨s₂, [slash]⟩ := Session.onPath hs₁ touchAB trivial canonical_ab
    (by decide) (show commandOf (text "touch") = some .touch by decide) (fun _ _ _ _ => rfl) htouch
  have hdir : vfsIsDirectory s₂ (joinParts [[97]]) = .ok true := by
    rw [vfsIsDirectory_joinParts (hs₂.ready hd).inv.wf canonical_a, hrec]
    exact congrArg Except.ok (decide_eq_true ⟨1, by decide, rfl⟩)
  exact ⟨s₂, hrec, Session.changeDirectory hs₂ cdA trivial canonical_a (by decide)
    (show commandOf (text "cd") = some .cd by decide) hdir⟩

/-! ### Paths -/

/-- **The working directory is canonical in every state of a session**, and whichever line comes next, its
command comes to its end, all its calls of `vfs_normalize` stay in their buffers and all paths it gives the VFS
are canonical. -/
theorem session_paths {d : Drive} (hd : Fresh d) {sh : Shell} (hs : AnySession d sh) :
    IsCanonicalPath sh.cwd ∧ ∀ (line : Line) (env : Env) (lines : List (List UInt8)), ∃ effects sh',
      consoleCommandLine env lines sh line.chars = .ok (effects, sh') ∧ Sound effects := by
  have hready := hs.ready hd
  constructor
  · obtain ⟨c, hc, hcwd⟩ := hready.cwd
    rw [hcwd]
    exact isCanonicalPath_joinParts hc
  · intro line env lines
    obtain ⟨effects, sh', hexec, hsound, -⟩ := execute_ok hready line env lines
    exact ⟨effects, sh', hexec, hsound⟩

theorem session_paths_nested : ∃ sh, AnySession (blankDisk 65536) sh ∧ sh.cwd = text "/a" ∧ IsCanonicalPath sh.cwd ∧
    ∀ (line : Line) (env : Env) (lines : List (List UInt8)), ∃ effects sh',
      consoleCommandLine env lines sh line.chars = .ok (effects, sh') ∧ Sound effects := by
  obtain ⟨fs, -, hs⟩ := exists_session_nested
  exact ⟨_, hs, show joinParts [[97]] = text "/a" by decide, session_paths (fresh_blankDisk 65536) hs⟩

/-! ## Walks -/

/-- The walks from the directory `n` at the path `p` make these visits. -/
structure Visits (s : State) (p : List (List UInt8)) (n : Slot) (visits : List (List (List UInt8) × Slot)) :
    Prop where
  /-- They are the pre-order of the table, which no depth cuts off … -/
  order : ∀ fuel, 16 ≤ fuel → preorder s.records fuel p n = visits
  /-- … with every record below the start … -/
  mem_iff : ∀ q i, (q, i) ∈ visits ↔ resolve s.records q = some i ∧ ∃ rest, rest ≠ [] ∧ q = p ++ rest
  /-- … exactly once. -/
  nodup : (visits.map Prod.fst).Nodup
  /-- `console_tree_walk` prints a line for each, indented by its depth. -/
  tree : ∃ effects, consoleTreeWalk s 16 0 (joinParts p) = .ok effects ∧ printed effects =
    visits.flatMap fun v => treeText s.records (v.1.length - (p.length + 1)) v.2
  /-- `console_find_walk` prints the path of each whose name has the needle in it. -/
  find : ∀ needle, ∃ effects, consoleFindWalk s needle 16 (joinParts p) = .ok effects ∧ printed effects =
    (visits.filter fun v => needle <:+: nameOf s.records v.2).flatMap fun v => joinParts v.1 ++ [newline]

/-- **`tree` and `find` visit every descendant once**, in every state of a session and from every directory. -/
theorem session_walks {d : Drive} (hd : Fresh d) {sh : Shell} (hs : AnySession d sh) {p : List (List UInt8)}
    {n : Slot} (hp : resolve sh.fs.records p = some n) (hdir : (sh.fs.records n).type = VfsType.directory.code) :
    ∃ visits, Visits sh.fs p n visits := by
  have hwf := (hs.ready hd).inv.wf
  have hpath := hwf.resolve_eq_some_iff.mp hp
  refine ⟨preorder sh.fs.records 16 p n, fun fuel hfuel => preorder_of_le hwf hfuel hpath, ?_,
    nodup_preorder hwf hpath, ?_, ?_⟩
  · intro q i
    rw [mem_preorder_iff hwf hpath, hwf.resolve_eq_some_iff]
    constructor
    · rintro ⟨rest, hne, -, rfl, hi⟩
      exact ⟨hi, rest, hne, rfl⟩
    · rintro ⟨hi, rest, hne, rfl⟩
      have hdepth := (hwf.canonical_of_path hi).depth_le
      rw [List.length_append] at hdepth
      exact ⟨rest, hne, by omega, rfl, hi⟩
  · refine ⟨_, consoleTreeWalk_eq hwf 16 0 hpath hdir, ?_⟩
    rw [printed_treeEffects hwf 16 0 hpath]
    apply List.flatMap_congr
    intro v _
    rw [printed_treeLine, Nat.zero_add]
  · intro needle
    refine ⟨_, consoleFindWalk_eq hwf needle 16 hpath hdir, ?_⟩
    rw [printed_findEffects hwf needle 16 hpath, flatMap_filter]
    exact List.flatMap_congr fun v _ => printed_findLine _ _ _ _

/-- From the root: `/a`, and `/a/b` in it -/
theorem session_walks_nested : ∃ sh, AnySession (blankDisk 65536) sh ∧ sh.fs.records = nestedTable ∧
    Visits sh.fs [] 0 [([[97]], 1), ([[97], [98]], 2)] := by
  have hd := fresh_blankDisk 65536
  obtain ⟨fs, hrec, hs⟩ := exists_session_nested
  obtain ⟨visits, hvisits⟩ := session_walks (p := []) hd hs rfl (hs.ready hd).inv.wf.root_type
  have horder := hvisits.order 16 le_rfl
  rw [hrec, show preorder nestedTable 16 [] 0 = [([[97]], 1), ([[97], [98]], 2)] by decide] at horder
  rw [← horder] at hvisits
  exact ⟨_, hs, hrec, hvisits⟩

end MinOS.Console
