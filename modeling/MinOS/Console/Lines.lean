/-
# MinOS.Console.Lines — what lines are made of.

Two facts about text. Every command that prints ends with a line break, so that the next prompt starts in the first
column (`linesEnd_execute`). And only printable characters get into the command line and the history: every key of
the editor keeps that (`Editor.IsPrintable.key`), and so does entering the line.
-/
import MinOS.Console.Editor

namespace MinOS.Console

open MinOS.Vfs MinOS.Ata MinOS.Input Machine LineBuffer

/-! ## Lines that are printed -/

/-- From the first column these effects lead back to it. -/
def EndsLine (effects : List Effect) : Prop :=
  ∀ k : Cursor, k.column = 0 → (effects.foldl Cursor.effect k).column = 0

@[simp] theorem endsLine_nil : EndsLine [] := fun _ hk => hk

theorem EndsLine.append {a b : List Effect} (ha : EndsLine a) (hb : EndsLine b) : EndsLine (a ++ b) := by
  intro k hk
  rw [List.foldl_append]
  exact hb _ (ha k hk)

@[simp] theorem endsLine_call {path : List UInt8} {effects : List Effect} :
    EndsLine (.call path :: effects) ↔ EndsLine effects := Iff.rfl

@[simp] theorem endsLine_normalize {cwd path : List UInt8} {effects : List Effect} :
    EndsLine (.normalize cwd path :: effects) ↔ EndsLine effects := Iff.rfl

/-- A line break -/
@[simp] theorem endsLine_newline (effects : List Effect) : EndsLine (effects ++ [.putc newline]) := by
  intro k _
  rw [List.foldl_append]
  rfl

/-- A text that ends with one -/
theorem endsLine_puts {s : List UInt8} (h : s.getLast? = some newline) : EndsLine (consolePuts s) := by
  obtain ⟨t, rfl⟩ := List.getLast?_eq_some_iff.mp h
  rw [consolePuts, List.map_append]
  exact endsLine_newline _

theorem endsLine_append_puts (effects : List Effect) {s : List UInt8} (h : s.getLast? = some newline) :
    EndsLine (effects ++ consolePuts s) := by
  obtain ⟨t, rfl⟩ := List.getLast?_eq_some_iff.mp h
  rw [consolePuts, List.map_append, ← List.append_assoc]
  exact endsLine_newline _

/-- Only the end of a long text is looked at. -/
theorem endsLine_puts_append (s : List UInt8) {t : List UInt8} (h : t.getLast? = some newline) :
    EndsLine (consolePuts (s ++ t)) := by
  rw [consolePuts, List.map_append]
  exact endsLine_append_puts _ h

@[simp] theorem endsLine_consoleError : EndsLine consoleError := endsLine_puts rfl

@[simp] theorem endsLine_report (rc : Int) : EndsLine (report rc) := by
  unfold report
  split
  · exact endsLine_consoleError
  · exact endsLine_nil

theorem endsLine_flatten {lines : List (List Effect)} (h : ∀ line ∈ lines, EndsLine line) :
    EndsLine lines.flatten := by
  induction lines with
  | nil => exact endsLine_nil
  | cons line lines ih =>
    obtain ⟨hline, hlines⟩ := List.forall_mem_cons.mp h
    exact hline.append (ih hlines)

@[simp] theorem endsLine_entryLine (e : VfsDirent) : EndsLine (entryLine e) := by
  rw [entryLine, ← List.append_assoc]
  exact endsLine_newline _

theorem endsLine_printHistory (lines : List (List UInt8)) : ∀ i, EndsLine (printHistory lines i) := by
  induction lines with
  | nil => exact fun _ => endsLine_nil
  | cons line lines ih =>
    intro i
    have hline := endsLine_newline
      (consolePutU64 (UInt64.ofNat (i + 1)) ++ (consolePuts (text " ") ++ consolePuts line))
    simpa [printHistory] using hline.append (ih (i + 1))

/-! ### Walks -/

theorem endsLine_treeWalk (s : State) (fuel : Nat) : ∀ (depth : Nat) (path : List UInt8),
    Yields EndsLine (consoleTreeWalk s fuel depth path) := by
  induction fuel with
  | zero => exact fun _ _ => yields_ok endsLine_nil
  | succ fuel ih =>
    intro depth path
    rw [consoleTreeWalk]
    apply yields_of_bind
    rintro (_ | entries)
    · exact yields_ok (endsLine_call.mpr endsLine_nil)
    refine yields_bind (yields_mapM fun e => ?_) fun lines hlines => yields_ok (endsLine_flatten hlines)
    have hline : EndsLine ((List.replicate depth (consolePuts (text "  "))).flatten ++ entryLine e) := by
      rw [entryLine, ← List.append_assoc, ← List.append_assoc]
      exact endsLine_newline _
    dsimp only
    split
    · split
      · exact yields_ok hline
      · exact yields_bind (ih _ _) fun _ hwalk => yields_ok (hline.append hwalk)
    · exact yields_ok hline

theorem endsLine_findWalk (s : State) (needle : List UInt8) (fuel : Nat) : ∀ path : List UInt8,
    Yields EndsLine (consoleFindWalk s needle fuel path) := by
  induction fuel with
  | zero => exact fun _ => yields_ok endsLine_nil
  | succ fuel ih =>
    intro path
    rw [consoleFindWalk]
    apply yields_of_bind
    rintro (_ | entries)
    · exact yields_ok (endsLine_call.mpr endsLine_nil)
    refine yields_bind (yields_mapM fun e => ?_) fun lines hlines => yields_ok (endsLine_flatten hlines)
    split
    · exact yields_ok endsLine_nil
    rename_i child _
    have hline : EndsLine
        (if consoleNameMatches e.name needle then consolePuts child ++ [.putc newline] else []) := by
      split <;> simp
    dsimp only
    split
    · exact yields_bind (ih _) fun _ hwalk => yields_ok (hline.append hwalk)
    · exact yields_ok hline

/-! ### Commands -/

/-- The effects of a computation end the line, whatever else it returns. -/
def LinesEnd {α : Type} (x : Except Fault (List Effect × α)) : Prop := Yields (fun r => EndsLine r.1) x

theorem linesEnd_ok {α : Type} {effects : List Effect} {a : α} (h : EndsLine effects) : LinesEnd (.ok (effects, a)) :=
  yields_ok h

section Commands

variable (sh : Shell) (argv : List (List UInt8))

theorem linesEnd_consoleArg (cwd : List UInt8) (n : Nat) : LinesEnd (consoleArg cwd argv n) := by
  unfold consoleArg
  split
  · exact linesEnd_ok endsLine_consoleError
  apply yields_of_bind
  rintro (_ | path)
  · exact linesEnd_ok (endsLine_normalize.mpr endsLine_consoleError)
  · exact linesEnd_ok (endsLine_normalize.mpr endsLine_nil)

theorem linesEnd_onPath (op : State → List UInt8 → Except Fault (Int × State)) : LinesEnd (onPath op sh argv) := by
  refine yields_bind (linesEnd_consoleArg argv _ _) ?_
  rintro ⟨effects, _ | path⟩ harg
  · exact linesEnd_ok harg
  · exact yields_of_bind fun _ => linesEnd_ok (harg.append (endsLine_call.mpr (endsLine_report _)))

theorem linesEnd_onPaths (op : State → List UInt8 → List UInt8 → Except Fault (Int × State)) :
    LinesEnd (onPaths op sh argv) := by
  unfold onPaths
  split
  · exact linesEnd_ok endsLine_nil
  refine yields_bind (linesEnd_consoleArg argv _ _) ?_
  rintro ⟨effects, _ | path⟩ harg
  · exact linesEnd_ok harg
  refine yields_bind (linesEnd_consoleArg argv _ _) ?_
  rintro ⟨effects', _ | path2⟩ harg'
  · exact linesEnd_ok (harg.append harg')
  · exact yields_of_bind fun _ => linesEnd_ok (harg.append (harg'.append
      (endsLine_call.mpr (endsLine_call.mpr (endsLine_report _)))))

theorem linesEnd_onText (append : Bool) : LinesEnd (onText append sh argv) := by
  unfold onText
  split
  · exact linesEnd_ok endsLine_consoleError
  refine yields_bind (linesEnd_consoleArg argv _ _) ?_
  rintro ⟨effects, _ | path⟩ harg
  · exact linesEnd_ok (harg.append endsLine_consoleError)
  · exact yields_of_bind fun _ => linesEnd_ok (harg.append (endsLine_call.mpr (endsLine_report _)))

theorem linesEnd_changeDirectory : LinesEnd (changeDirectory sh argv) := by
  refine yields_bind (linesEnd_consoleArg argv _ _) ?_
  rintro ⟨effects, _ | path⟩ harg
  · exact linesEnd_ok (harg.append endsLine_consoleError)
  refine yields_of_bind fun isDirectory => ?_
  split
  · exact linesEnd_ok (harg.append (endsLine_call.mpr endsLine_nil))
  · exact linesEnd_ok (harg.append (endsLine_call.mpr endsLine_consoleError))

theorem endsLine_consoleList (s : State) (path : List UInt8) : Yields EndsLine (consoleList s path) := by
  unfold consoleList
  apply yields_of_bind
  rintro (_ | stat)
  · exact yields_ok (endsLine_call.mpr endsLine_consoleError)
  dsimp only
  split
  · exact yields_ok (endsLine_call.mpr (endsLine_newline _))
  apply yields_of_bind
  rintro (_ | entries)
  · exact yields_ok (endsLine_call.mpr (endsLine_call.mpr endsLine_consoleError))
  · refine yields_ok (endsLine_call.mpr (endsLine_call.mpr (endsLine_flatten ?_)))
    simp

theorem linesEnd_list : LinesEnd (list sh argv) := by
  refine yields_bind (linesEnd_consoleArg argv _ _) ?_
  rintro ⟨effects, _ | path⟩ harg
  · exact linesEnd_ok harg
  · exact yields_bind (endsLine_consoleList _ _) fun _ hlist => linesEnd_ok (harg.append hlist)

theorem linesEnd_concatenate : LinesEnd (concatenate sh argv) := by
  refine yields_bind (linesEnd_consoleArg argv _ _) ?_
  rintro ⟨effects, _ | path⟩ harg
  · exact linesEnd_ok harg
  apply yields_of_bind
  rintro ⟨_ | data, fs⟩
  · exact linesEnd_ok (harg.append (endsLine_call.mpr endsLine_consoleError))
  · exact linesEnd_ok (harg.append (endsLine_call.mpr (endsLine_newline _)))

theorem linesEnd_tree : LinesEnd (tree sh argv) := by
  refine yields_bind (linesEnd_consoleArg argv _ _) ?_
  rintro ⟨effects, _ | path⟩ harg
  · exact linesEnd_ok harg
  apply yields_of_bind
  rintro (_ | stat)
  · exact linesEnd_ok (harg.append (endsLine_call.mpr endsLine_consoleError))
  have hlines : ∀ walk, EndsLine walk →
      EndsLine (effects ++ .call path :: (consolePuts path ++ .putc newline :: walk)) := by
    intro walk hwalk
    rw [List.append_cons (consolePuts path)]
    exact harg.append (endsLine_call.mpr ((endsLine_newline _).append hwalk))
  dsimp only
  split
  · exact yields_bind (endsLine_treeWalk _ _ _ _) fun walk hwalk => linesEnd_ok (hlines walk hwalk)
  · exact linesEnd_ok (hlines [] endsLine_nil)

theorem linesEnd_search : LinesEnd (search sh argv) := by
  refine yields_bind (linesEnd_consoleArg argv _ _) ?_
  rintro ⟨effects, _ | path⟩ harg
  · exact linesEnd_ok harg
  apply yields_of_bind
  rintro (_ | stat)
  · exact linesEnd_ok (harg.append (endsLine_call.mpr endsLine_consoleError))
  dsimp only
  split
  · refine linesEnd_ok (harg.append (endsLine_call.mpr ?_))
    split <;> simp
  · exact yields_bind (endsLine_findWalk _ _ _ _) fun _ hwalk =>
      linesEnd_ok (harg.append (endsLine_call.mpr hwalk))

end Commands

/-- **Every command that prints ends with a line break.** -/
theorem linesEnd_execute (env : Env) (lines : List (List UInt8)) (sh : Shell) (line : List UInt8) :
    LinesEnd (consoleCommandLine env lines sh line) := by
  rw [consoleCommandLine]
  cases consoleWords 8 line with
  | nil => exact linesEnd_ok endsLine_nil
  | cons name rest =>
    rw [consoleCommandWords]
    cases commandOf name with
    | none => exact linesEnd_ok (endsLine_puts rfl)
    | some c =>
      cases c with
      | help | about => exact linesEnd_ok (endsLine_puts_append _ rfl)
      | clear => exact linesEnd_ok fun _ _ => rfl
      | mem | pwd | echo => exact linesEnd_ok (endsLine_newline _)
      | ticks | uptime => exact linesEnd_ok (endsLine_append_puts _ rfl)
      | reboot | shutdown => exact linesEnd_ok fun _ hk => hk
      | ls => exact linesEnd_list sh _
      | cd => exact linesEnd_changeDirectory sh _
      | mkdir | rmdir | touch | rm => exact linesEnd_onPath sh _ _
      | cat => exact linesEnd_concatenate sh _
      | write | append => exact linesEnd_onText sh _ _
      | cp | mv => exact linesEnd_onPaths sh _ _
      | tree => exact linesEnd_tree sh _
      | find => exact linesEnd_search sh _
      | df =>
        refine linesEnd_ok (endsLine_puts ?_)
        split <;> rfl
      | history => exact linesEnd_ok (endsLine_printHistory _ _)

/-! ## Lines that are typed -/

/-- A character with a glyph -/
def Printable (ch : UInt8) : Prop := 32 ≤ ch ∧ ch ≤ 126

/-- The line and the history are made of such characters. -/
structure Editor.IsPrintable (ed : Editor) : Prop where
  line : ∀ ch ∈ ed.line, Printable ch
  lines : ∀ line ∈ ed.lines, ∀ ch ∈ line, Printable ch

section Typed

variable {ed : Editor} (h : ed.IsPrintable)
include h

/-- A line made of characters of the old one -/
theorem Editor.IsPrintable.part {before after : List UInt8} (hsub : before ++ after ⊆ ed.line) :
    Editor.IsPrintable { ed with before, after } :=
  ⟨fun ch hch => h.line ch (hsub hch), h.lines⟩

theorem Editor.IsPrintable.insert {ch : UInt8} (hch : Printable ch) : (ed.insert ch).IsPrintable := by
  unfold Editor.insert
  split
  · refine ⟨fun c hc => ?_, h.lines⟩
    simp only [Editor.line, List.mem_append, List.mem_singleton] at hc
    rcases hc with (hc | rfl) | hc
    · exact h.line c (List.mem_append_left _ hc)
    · exact hch
    · exact h.line c (List.mem_append_right _ hc)
  · exact h

theorem Editor.IsPrintable.insertSpaces (spaces : Nat) : (ed.insertSpaces spaces).IsPrintable := by
  induction spaces generalizing ed with
  | zero => exact h
  | succ spaces ih => exact ih (h.insert ⟨by decide, by decide⟩)

theorem Editor.IsPrintable.choose (index : Nat) : (ed.choose index).IsPrintable := by
  refine ⟨fun ch hch => ?_, h.lines⟩
  simp only [Editor.line, Editor.choose, List.append_nil] at hch
  split at hch
  · exact absurd hch List.not_mem_nil
  rw [List.getD_eq_getElem?_getD] at hch
  cases hline : ed.lines[index - 1]? with
  | none =>
    rw [hline] at hch
    exact absurd hch List.not_mem_nil
  | some line =>
    rw [hline] at hch
    exact h.lines line (List.mem_of_getElem? hline) ch hch

theorem Editor.IsPrintable.backspace : Editor.IsPrintable { ed with before := ed.before.dropLast } := by
  refine h.part (List.append_subset.mpr ⟨fun ch hch => ?_, List.subset_append_right _ _⟩)
  exact List.mem_append_left _ (List.dropLast_subset _ hch)

theorem Editor.IsPrintable.left {ch : UInt8} (hlast : ed.before.getLast? = some ch) :
    Editor.IsPrintable { ed with before := ed.before.dropLast, after := ch :: ed.after } := by
  refine h.part fun c hc => ?_
  obtain ⟨front, hfront⟩ := List.getLast?_eq_some_iff.mp hlast
  rw [hfront, List.dropLast_concat] at hc
  rw [Editor.line, hfront]
  simpa using hc

theorem Editor.IsPrintable.right {ch : UInt8} {after : List UInt8} (hafter : ed.after = ch :: after) :
    Editor.IsPrintable { ed with before := ed.before ++ [ch], after } := by
  refine h.part fun c hc => ?_
  rw [Editor.line, hafter]
  simpa using hc

/-- Every key -/
theorem Editor.IsPrintable.key (prompt : Nat) (event : Event) : (ed.key prompt event).IsPrintable := by
  unfold Editor.key
  refine iteInduction (fun _ => h) fun _ => ?_
  refine iteInduction (fun _ => h.backspace) fun _ => ?_
  refine iteInduction (fun _ => h.insertSpaces _) fun _ => ?_
  refine iteInduction (fun _ => ?_) fun _ => ?_
  · split
    · exact h.left ‹_›
    · exact h
  refine iteInduction (fun _ => ?_) fun _ => ?_
  · split
    · exact h.right ‹_›
    · exact h
  refine iteInduction (fun _ => iteInduction (fun _ => h) fun _ => h.choose _) fun _ => ?_
  refine iteInduction (fun _ => iteInduction (fun _ => h) fun _ => h.choose _) fun _ => ?_
  refine iteInduction (fun _ => h.part (List.Subset.refl _)) fun _ => ?_
  refine iteInduction (fun _ => h.part (by simp)) fun _ => ?_
  refine iteInduction (fun _ => h.part (by simp)) fun _ => ?_
  refine iteInduction (fun _ => h.part (by simp [Editor.line])) fun _ => ?_
  exact iteInduction (fun hchar => h.insert hchar) fun _ => h

theorem Editor.IsPrintable.enter : ed.enter.IsPrintable := by
  refine ⟨fun ch hch => absurd hch List.not_mem_nil, ?_⟩
  intro line hline
  rw [Editor.enter, addHistory] at hline
  dsimp only at hline
  split at hline
  · exact h.lines line hline
  split at hline
  · exact h.lines line hline
  · rcases List.mem_cons.mp (List.mem_of_mem_take hline) with rfl | hline
    · exact h.line
    · exact h.lines line hline

end Typed

end MinOS.Console
