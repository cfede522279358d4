/-
# MinOS.Console.WorkingDirectory — whether the working directory is there.

`cwd` is a string; the filesystem does not know that the console stands in a directory. Of all calls only `rmdir`
takes a directory away (`step_dirAt`), and only an empty one. So a session keeps its working directory as long as
it does not remove it: by an `rmdir` of the directory's own path, however it is spelled, while it is empty.
-/
import MinOS.Console.Session

namespace MinOS.Console

open MinOS.Vfs MinOS.Ata NameTree Machine

/-! ## Directories that stay -/

/-- The record `n` is a directory with this path. -/
def DirAt (t : Table) (q : List (List UInt8)) (n : Slot) : Prop :=
  (links t).Path n q ∧ (t n).type = VfsType.directory.code

theorem not_fileAt {t : Table} {q : List (List UInt8)} {n : Slot} (hn : DirAt t q n) {path : List UInt8}
    (hf : fileAt t path = some n) : False := by
  have hfile := (fileAt_eq_some_iff.mp hf).2
  rw [hn.2] at hfile
  exact absurd hfile (by decide)

/-- A directory stays through a micro-step that does not edit its own record. -/
theorem DirAt.micro {c : Scope} {s s' : State} (hstep : Micro c s s') (h : Wf s.records)
    {q : List (List UInt8)} {n : Slot} (hn : DirAt s.records q n) (hedit : ¬ c.edits n) :
    DirAt s'.records q n := by
  refine ⟨?_, by rw [hstep.records_of_not_edits hedit]; exact hn.2⟩
  cases hstep with
  | create type hc =>
    rw [persist_records]
    exact (hc.path_iff h type).mpr (Or.inl hn.1)
  | clear hc hm =>
    rw [clearUsed_records]
    refine (hc.path_iff h).mpr ⟨hn.1, ?_⟩
    rintro rfl
    exact hedit hm
  | refresh => rw [refresh_records]; exact hn.1
  | write => rw [writeAt_records, links_resize]; exact hn.1

theorem DirAt.micros {c : Scope} {s s' : State} (hsteps : Micros c s s') (h : Wf s.records)
    {q : List (List UInt8)} {n : Slot} (hn : DirAt s.records q n) (hedit : ¬ c.edits n) :
    DirAt s'.records q n := by
  induction hsteps with
  | refl => exact hn
  | tail hsteps hstep ih => exact ih.micro hstep (Micros.wf hsteps h) hedit

section OneCall

variable {s s' : State} (h : Wf s.records) {q : List (List UInt8)} {n : Slot} (hn : DirAt s.records q n)
include h hn

theorem not_newSlot {path : PathArg} (hk : newSlot s.records path.chars = some n) : False := by
  obtain ⟨⟨j, k, x⟩, ht, rfl⟩ := Option.map_eq_some_iff.mp hk
  obtain ⟨p, -, hc⟩ := creatable_of_createTarget ht
  exact h.path_used hn.1 hc.free

omit h in
theorem fileAt_eq_none {path : List UInt8} (hl : lookup s.records path = some n) :
    fileAt s.records path = none := by
  rw [fileAt, hl, Option.filter_some_neg]
  rw [hn.2]
  decide

/-- **Only `rmdir` of its own path takes a directory away**, and only an empty one other than the root. -/
theorem step_dirAt {op : Op} {r : Reply} (hstep : step s op = .ok (r, s')) :
    (∃ p, op = .rmdir p ∧ rmdirTarget s.records p.chars = some n) ∨ DirAt s'.records q n := by
  obtain ⟨r', s'', hstep', hmicros⟩ := h.step_micros op
  rw [hstep] at hstep'
  obtain ⟨rfl, rfl⟩ := Prod.mk.inj (Except.ok.inj hstep')
  by_cases hedit : (op.scope s.records).edits n
  · cases op with
    | mkdir p => exact (not_newSlot h hn hedit).elim
    | touch p => exact (not_newSlot h hn hedit).elim
    | rmdir p =>
      by_cases ht : rmdirTarget s.records p.chars = some n
      · exact Or.inl ⟨p, rfl, ht⟩
      · -- the directory was looked up and is not removed: nothing is
        have hnone : rmdirTarget s.records p.chars = none := by
          cases hm : rmdirTarget s.records p.chars with
          | none => rfl
          | some m =>
            have hl := (rmdirTarget_eq_some_iff.mp hm).1
            rw [show lookup s.records p.chars = some n from hedit] at hl
            rw [hm, Option.some.inj hl] at ht
            exact absurd rfl ht
        obtain ⟨rc, hx, -⟩ := reply_eq_ok_iff.mp hstep
        rw [h.rmdir_eq, hnone] at hx
        cases hx
        exact Or.inr hn
    | remove p =>
      obtain ⟨rc, hx, -⟩ := reply_eq_ok_iff.mp hstep
      rw [h.remove_eq, fileAt_eq_none hn hedit] at hx
      cases hx
      exact Or.inr hn
    | write p d append => exact (not_fileAt hn hedit).elim
    | copy src dst => exact (hedit.elim (not_fileAt hn) (not_newSlot h hn)).elim
    | move src dst =>
      rcases hedit with (hf | hk) | hl
      · exact (not_fileAt hn hf).elim
      · exact (not_newSlot h hn hk).elim
      · -- a directory cannot be read
        obtain ⟨rc, hx, -⟩ := reply_eq_ok_iff.mp hstep
        have hread : vfsRead s src.chars 4096 = .ok (none, s) := by
          rw [h.read_eq, fileAt_eq_none hn hl]
        rw [vfsMove, vfsCopy, hread] at hx
        cases hx
        exact Or.inr hn
    | read p cap => exact hedit.elim
    | list p max => exact hedit.elim
    | stat p => exact hedit.elim
  · exact Or.inr (hn.micros hmicros h hedit)

end OneCall

/-! ## Sessions -/

/-- `cwd` names a directory. -/
def CwdExists (sh : Shell) : Prop :=
  ∃ stat, vfsStatPath sh.fs sh.cwd = .ok (some stat) ∧ stat.type = VfsType.directory.code

/-- The line removes the working directory: it is an `rmdir` of its path, and the directory is empty and not the
root. -/
def RemovesCwd (sh : Shell) (line : Line) : Prop :=
  Removes sh.cwd (consoleWords 8 line.chars) sh.cwd ∧ sh.cwd ≠ [slash] ∧ vfsList sh.fs sh.cwd 64 = .ok (some [])

theorem cwdExists_iff {sh : Shell} (h : Wf sh.fs.records) {q : List (List UInt8)} (hq : Canonical q)
    (hcwd : sh.cwd = joinParts q) : CwdExists sh ↔ ∃ n, DirAt sh.fs.records q n := by
  rw [CwdExists, hcwd, vfsStatPath_joinParts h hq]
  constructor
  · rintro ⟨stat, hstat, hd⟩
    obtain ⟨n, hn, rfl⟩ := Option.map_eq_some_iff.mp (Except.ok.inj hstat)
    exact ⟨n, h.resolve_eq_some_iff.mp hn, hd⟩
  · rintro ⟨n, hn, hd⟩
    rw [h.resolve_eq_some_iff.mpr hn, Option.map_some]
    exact ⟨_, rfl, hd⟩

/-- What `rmdir` of the path of a directory removes -/
theorem rmdirTarget_joinParts {t : Table} (h : Wf t) {q : List (List UInt8)} {n : Slot} (hn : DirAt t q n) :
    rmdirTarget t (joinParts q) = some n ↔ q ≠ [] ∧ children t n = [] := by
  have hcanonical := h.canonical_of_path hn.1
  have hlookup : lookup t (joinParts q) = some n := by
    rw [lookup, canon_joinParts hcanonical, Option.bind_some]
    exact h.resolve_eq_some_iff.mpr hn.1
  have hroot : n ≠ 0 ↔ q ≠ [] := by
    rw [not_iff_not]
    constructor
    · rintro rfl
      exact hn.1.unique .root
    · rintro rfl
      exact hn.1.inj h.distinct .root
  have hempty : ¬ slots.any (isChildOf t n) = true ↔ children t n = [] := by
    rw [children, List.filter_eq_nil_iff, List.any_eq_true]
    push Not
    rfl
  rw [rmdirTarget_eq_some_iff, hroot, hempty]
  exact ⟨fun hall => ⟨hall.2.1, hall.2.2.2⟩, fun hboth => ⟨hlookup, hboth.1, hn.2, hboth.2⟩⟩

/-- A line that does not remove the working directory keeps it. -/
theorem Changes.cwdExists {sh sh' : Shell} {line : Line} (h : Ready sh) (hexists : CwdExists sh)
    (hchanges : Changes sh (consoleWords 8 line.chars) sh') (hline : ¬ RemovesCwd sh line) : CwdExists sh' := by
  obtain ⟨q, hq, hcwd⟩ := h.cwd
  obtain ⟨n, hn⟩ := (cwdExists_iff h.inv.wf hq hcwd).mp hexists
  have hready := hchanges.ready h
  cases hchanges with
  | nothing => exact hexists
  | cd hp hd => exact (cwdExists_iff hready.inv.wf (h.inv.wf.canonical_of_path hp) rfl).mpr ⟨_, hp, hd⟩
  | call hstep hrmdir =>
    obtain ⟨p, rfl, htarget⟩ | hn' := step_dirAt h.inv.wf hn hstep
    · -- the directory was removed: `rmdir` was given its path, the working directory
      obtain ⟨hremoves, c, hc, hpc⟩ := hrmdir p rfl
      have hlookup := (rmdirTarget_eq_some_iff.mp htarget).1
      rw [hpc, lookup, canon_joinParts hc, Option.bind_some, h.inv.wf.resolve_eq_some_iff] at hlookup
      obtain rfl : c = q := hlookup.unique hn.1
      rw [hpc, rmdirTarget_joinParts h.inv.wf hn] at htarget
      rw [hpc, ← hcwd] at hremoves
      refine absurd ⟨hremoves, ?_, ?_⟩ hline
      · rw [hcwd, Ne, joinParts_eq_root_iff hq.good]
        exact htarget.1
      · rw [hcwd, vfsList_joinParts h.inv.wf hn.1 hn.2, htarget.2]
        rfl
    · exact (cwdExists_iff hready.inv.wf hq hcwd).mpr ⟨n, hn'⟩

/-- **A session that does not remove its working directory has one**, in every state. -/
theorem cwd_exists {d : Drive} (hd : Fresh d) {sh : Shell}
    (hs : Session (fun sh line => ¬ RemovesCwd sh line) d sh) : CwdExists sh := by
  induction hs with
  | init =>
    have hwf := hd.inv_mount.wf
    exact (cwdExists_iff hwf canonical_nil rfl).mpr ⟨0, .root, hwf.root_type⟩
  | enter hs hmay hexec _ ih =>
    exact (changes_of_execute (hs.ready hd) hexec).2.cwdExists (hs.ready hd) ih hmay

/-- A line that removes the working directory leaves the console in no directory. -/
theorem not_cwdExists_of_removesCwd {sh sh' : Shell} (h : Ready sh) (hexists : CwdExists sh) {line : Line}
    (hline : RemovesCwd sh line) {env : Env} {lines : List (List UInt8)} {effects : List Effect}
    (hexec : consoleCommandLine env lines sh line.chars = .ok (effects, sh')) : ¬ CwdExists sh' := by
  obtain ⟨q, hq, hcwd⟩ := h.cwd
  obtain ⟨n, hn⟩ := (cwdExists_iff h.inv.wf hq hcwd).mp hexists
  obtain ⟨⟨name, arg, rest, hargv, hname, hnorm⟩, hroot, hempty⟩ := hline
  -- the target of the `rmdir` is the working directory
  have htarget : rmdirTarget sh.fs.records (joinParts q) = some n := by
    rw [rmdirTarget_joinParts h.inv.wf hn]
    rw [hcwd, Ne, joinParts_eq_root_iff hq.good] at hroot
    rw [hcwd, vfsList_joinParts h.inv.wf hn.1 hn.2] at hempty
    exact ⟨hroot, List.map_eq_nil_iff.mp (Option.some.inj (Except.ok.inj hempty))⟩
  have hrmdir := h.inv.wf.rmdir_eq hq.arg
  rw [show hq.arg.chars = joinParts q from rfl, htarget] at hrmdir
  dsimp only at hrmdir
  rw [consoleCommandLine, hargv, consoleCommandWords, hname] at hexec
  dsimp only [branch] at hexec
  rw [onPath, consoleArg] at hexec
  dsimp only [List.getElem?_cons_succ, List.getElem?_cons_zero] at hexec
  rw [hnorm, ok_bind, hcwd] at hexec
  dsimp only at hexec
  rw [ok_bind] at hexec
  dsimp only at hexec
  rw [hrmdir, ok_bind] at hexec
  obtain ⟨-, rfl⟩ := Prod.mk.inj (Except.ok.inj hexec)
  have hclear := h.inv.wf.clearable_of_rmdirTarget htarget
  have hwf := hclear.wf h.inv.wf
  rw [← clearUsed_records] at hwf
  intro hexists'
  obtain ⟨m, hm, -⟩ := (cwdExists_iff hwf hq rfl).mp hexists'
  dsimp only at hm
  rw [clearUsed_records, hclear.path_iff h.inv.wf] at hm
  exact hm.2 (hm.1.inj h.inv.wf.distinct hn.1)

/-! ## `mkdir /a`, `cd /a`, `rmdir /a` -/

/-- `rmdir /a` -/
def rmdirA : Line := ⟨text "rmdir /a", by decide, by decide⟩

/-- The empty filesystem with a directory `/a` -/
def withDirA : State :=
  { (mount noDrive).2.setRecord 1 (newRecord .directory 0 1 [97]) with flushed := true }

theorem fresh_noDrive : Fresh noDrive := nofun

theorem session_withDirA {mayEnter : Shell → Line → Prop} (h : mayEnter ⟨(mount noDrive).2, [slash]⟩ mkdirA) :
    Session mayEnter noDrive ⟨withDirA, [slash]⟩ := by
  have hmkdir := fresh_noDrive.inv_mount.wf.create_eq pathA .directory
  rw [createTarget_pathA fresh_noDrive] at hmkdir
  dsimp only at hmkdir
  rw [persist_volatile rfl] at hmkdir
  exact Session.onPath .init mkdirA h canonical_a (by decide) (show commandOf (text "mkdir") = some .mkdir by decide)
    (fun _ _ _ _ => rfl) hmkdir

theorem wf_withDirA : Wf withDirA.records :=
  ((session_withDirA trivial : AnySession noDrive _).ready fresh_noDrive).inv.wf

/-- In `/a` -/
def inA : Shell := ⟨withDirA, joinParts [[97]]⟩

theorem session_inA {mayEnter : Shell → Line → Prop} (h₁ : mayEnter ⟨(mount noDrive).2, [slash]⟩ mkdirA)
    (h₂ : mayEnter ⟨withDirA, [slash]⟩ cdA) : Session mayEnter noDrive inA := by
  have hdir : vfsIsDirectory withDirA (joinParts [[97]]) = .ok true := by
    rw [vfsIsDirectory_joinParts wf_withDirA canonical_a]
    exact congrArg Except.ok (decide_eq_true ⟨1, by decide, rfl⟩)
  exact Session.changeDirectory (session_withDirA h₁) cdA h₂ canonical_a (by decide)
    (show commandOf (text "cd") = some .cd by decide) hdir

/-- Only `rmdir` removes. -/
theorem not_removes_of_commandOf {cwd name path : List UInt8} {rest : List (List UInt8)}
    (hname : commandOf name ≠ some .rmdir) : ¬ Removes cwd (name :: rest) path := by
  rintro ⟨name', arg, rest', heq, hrmdir, -⟩
  obtain ⟨rfl, -⟩ := List.cons.inj heq
  exact hname hrmdir

/-- After `mkdir /a` and `cd /a` the working directory is there. -/
theorem cwd_exists_inA : CwdExists inA :=
  cwd_exists fresh_noDrive (session_inA (fun h => not_removes_of_commandOf (by decide) h.1)
    fun h => not_removes_of_commandOf (by decide) h.1)

/-- After `rmdir /a` it is not. -/
theorem cwd_removed : ¬ ∀ d : Drive, Fresh d → ∀ sh, AnySession d sh → CwdExists sh := by
  intro hall
  have hs : AnySession noDrive inA := session_inA trivial trivial
  have hready := hs.ready fresh_noDrive
  have hwords : consoleWords 8 rmdirA.chars = [text "rmdir", joinParts [[97]]] := by decide
  have hname : commandOf (text "rmdir") = some .rmdir := by decide
  have hremoves : RemovesCwd inA rmdirA := by
    refine ⟨⟨_, _, [], hwords, hname, vfsNormalize_joinParts canonical_a _⟩, by decide, ?_⟩
    have hpath := wf_withDirA.resolve_eq_some_iff.mp (show resolve withDirA.records [[97]] = some 1 by decide)
    have hlist := vfsList_joinParts wf_withDirA hpath rfl
    rw [show children withDirA.records 1 = [] by decide] at hlist
    exact hlist
  obtain ⟨rc, fs, hrmdir, -⟩ := hready.code (.rmdir canonical_a.arg) rfl
  have hexec := execute_eq hwords hname ⟨0, 0, 0, 0, 0⟩ [] inA
  rw [branch, onPath_joinParts canonical_a rfl hrmdir] at hexec
  have hs' : AnySession noDrive { inA with fs } := .enter hs trivial hexec (by simp [halt_notMem_report])
  exact not_cwdExists_of_removesCwd hready (hall _ fresh_noDrive _ hs) hremoves hexec (hall _ fresh_noDrive _ hs')

end MinOS.Console
