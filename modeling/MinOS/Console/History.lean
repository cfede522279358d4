/-
# MinOS.Console.History — which lines the Up key brings back.

`console_add_history` keeps the newest line in row 0 and moves the others up, but it looks for the line before in
row `history_count - 1`, where the oldest one is. A line that comes back while it is the oldest one kept is
forgotten, and so is one that differs from it in upper and lower case only. As long as that does not happen
(`Remembers`) the rows are the lines that were entered, newest first (`history_recent`).
-/
import MinOS.Console.Editor

namespace MinOS.Console

open MinOS.Vfs MinOS.Ata MinOS.Input Machine LineBuffer

/-! ## What a history is for -/

/-- The lines to keep of those entered, newest first. A line that repeats the one before it may be left out. -/
inductive Kept : (entered kept : List (List UInt8)) → Prop
  | nil : Kept [] []
  | keep {line : List UInt8} {entered kept : List (List UInt8)} (h : Kept entered kept) :
      Kept (line :: entered) (line :: kept)
  | leave {line : List UInt8} {entered kept : List (List UInt8)} (h : Kept (line :: entered) kept) :
      Kept (line :: line :: entered) kept

theorem Kept.head?_eq {entered kept : List (List UInt8)} (h : Kept entered kept) : kept.head? = entered.head? := by
  induction h with
  | nil => rfl
  | keep => rfl
  | leave _ ih => exact ih

/-- The rows hold the newest of the lines to keep. -/
def HoldsRecent (entered : List (List UInt8)) (c : ConsoleState) : Prop :=
  ∃ kept, Kept (entered.filter (· ≠ [])) kept ∧ historyLines c = .ok (kept.take historyMax)

/-- Pressing Up shows this line. -/
def Recalls (c : ConsoleState) (line : List UInt8) : Prop :=
  ∀ m : Moment, m.event.pressed ≠ 0 → m.event.key = .up → ∃ c', consoleEvent m c = .ok ([], c') ∧ c'.line = line

/-- A line that is entered and matches the oldest one kept, in all but case, is the newest one kept. -/
def Remembers (c : ConsoleState) (m : Moment) : Prop :=
  m.Enters → ∀ lines, historyLines c = .ok lines → ∀ oldest ∈ lines.getLast?, consoleStreq oldest c.line →
    lines.head? = some c.line

/-! ## Keys -/

theorem insertSpaces_lines (spaces : Nat) (ed : Editor) : (ed.insertSpaces spaces).lines = ed.lines := by
  induction spaces generalizing ed with
  | zero => rfl
  | succ spaces ih =>
    rw [Editor.insertSpaces, ih, Editor.insert]
    split <;> rfl

/-- No key changes the lines. -/
theorem key_lines (prompt : Nat) (event : Event) (ed : Editor) : (ed.key prompt event).lines = ed.lines := by
  let Keeps (ed' : Editor) : Prop := ed'.lines = ed.lines
  have hkeep : Keeps ed := rfl
  have hchoose : ∀ index, Keeps (ed.choose index) := fun _ => rfl
  have hreplace : ∀ line, Keeps (ed.replace line) := fun _ => rfl
  unfold Editor.key
  refine iteInduction (motive := Keeps) (fun _ => hkeep) fun _ => ?_
  refine iteInduction (motive := Keeps) (fun _ => rfl) fun _ => ?_
  refine iteInduction (motive := Keeps) (fun _ => insertSpaces_lines _ ed) fun _ => ?_
  refine iteInduction (motive := Keeps) (fun _ => ?_) fun _ => ?_
  · cases ed.before.getLast? with
    | none => exact hkeep
    | some ch => rfl
  refine iteInduction (motive := Keeps) (fun _ => ?_) fun _ => ?_
  · cases ed.after with
    | nil => exact hkeep
    | cons ch after => rfl
  refine iteInduction (motive := Keeps) (fun _ => ?_) fun _ => ?_
  · exact iteInduction (motive := Keeps) (fun _ => hkeep) fun _ => hchoose _
  refine iteInduction (motive := Keeps) (fun _ => ?_) fun _ => ?_
  · exact iteInduction (motive := Keeps) (fun _ => hkeep) fun _ => hchoose _
  refine iteInduction (motive := Keeps) (fun _ => rfl) fun _ => ?_
  refine iteInduction (motive := Keeps) (fun _ => hreplace _) fun _ => ?_
  refine iteInduction (motive := Keeps) (fun _ => hreplace _) fun _ => ?_
  refine iteInduction (motive := Keeps) (fun _ => hreplace _) fun _ => ?_
  refine iteInduction (motive := Keeps) (fun _ => ?_) fun _ => hkeep
  exact iteInduction (motive := Keeps) (fun _ => rfl) fun _ => hkeep

/-! ## Entering a line -/

/-- The Up key on an empty line -/
theorem key_up {event : Event} (hpressed : event.pressed ≠ 0) (hup : event.key = .up) (prompt : Nat)
    (lines : List (List UInt8)) :
    ((⟨[], [], lines, 0⟩ : Editor).key prompt event).line = lines.headD [] := by
  rw [Editor.key, if_neg hpressed, hup]
  cases lines with
  | nil => rfl
  | cons line lines => simp [Editor.choose, Editor.line]

/-- What Up brings back is the newest line kept. -/
theorem recalls_iff {c : ConsoleState} {lines : List (List UInt8)} (h : Represents c ⟨[], [], lines, 0⟩)
    (hs : c.Settled) {line : List UInt8} (hne : line ≠ []) : Recalls c line ↔ lines.head? = some line := by
  have hup : ∀ m : Moment, m.event.pressed ≠ 0 → m.event.key = .up →
      ∃ c', consoleEvent m c = .ok ([], c') ∧ c'.line = lines.headD [] := by
    intro m hpressed hkey
    have hm : ¬ m.Enters := fun henters => nomatch hkey.symm.trans henters.2
    obtain ⟨c', hc', hrep, -⟩ := exists_event_key h hs hm
    exact ⟨c', hc', hrep.line_eq.trans (key_up hpressed hkey _ lines)⟩
  constructor
  · intro hrecalls
    have hpressed : (press .up 0).event.pressed ≠ 0 := by decide
    obtain ⟨c', hc', hline⟩ := hrecalls (press .up 0) hpressed rfl
    obtain ⟨c'', hc'', hline'⟩ := hup (press .up 0) hpressed rfl
    obtain ⟨-, rfl⟩ := Prod.mk.inj (Except.ok.inj (hc'.symm.trans hc''))
    rw [hline] at hline'
    cases lines with
    | nil => exact absurd hline' hne
    | cons newest lines => simpa using hline'.symm
  · intro hhead m hpressed hkey
    obtain ⟨c', hc', hline⟩ := hup m hpressed hkey
    refine ⟨c', hc', hline.trans ?_⟩
    rw [List.headD_eq_head?_getD, hhead, Option.getD_some]

/-- After a line was entered it is the newest one kept, or it matches the oldest one, which decides. -/
theorem head?_addHistory {line : List UInt8} (hne : line ≠ []) (lines : List (List UInt8)) :
    (addHistory line lines).head? = some line ↔
      ∀ oldest ∈ lines.getLast?, consoleStreq oldest line → lines.head? = some line := by
  rw [addHistory, if_neg hne]
  split
  · rename_i hlast
    obtain ⟨oldest, hold, hmatch⟩ := hlast
    exact ⟨fun hhead _ _ _ => hhead, fun hall => hall oldest hold hmatch⟩
  · rename_i hlast
    refine ⟨fun _ oldest hold hmatch => absurd ⟨oldest, hold, hmatch⟩ hlast, fun _ => rfl⟩

/-- The lines kept, after one more -/
theorem kept_addHistory {entered kept : List (List UInt8)} {line : List UInt8}
    (h : Kept (entered.filter (· ≠ [])) kept)
    (hline : ∀ oldest ∈ (kept.take historyMax).getLast?, consoleStreq oldest line →
      (kept.take historyMax).head? = some line) :
    ∃ kept', Kept ((line :: entered).filter (· ≠ [])) kept' ∧
      addHistory line (kept.take historyMax) = kept'.take historyMax := by
  by_cases hne : line = []
  · refine ⟨kept, ?_, by rw [addHistory, if_pos hne]⟩
    rw [List.filter_cons_of_neg (by simpa using hne)]
    exact h
  rw [List.filter_cons_of_pos (by simpa using hne), addHistory, if_neg hne]
  split
  · -- it is the line before
    rename_i hlast
    obtain ⟨oldest, hold, hmatch⟩ := hlast
    have hhead := hline oldest hold hmatch
    rw [List.head?_take, if_neg (by decide), h.head?_eq] at hhead
    obtain ⟨rest, hrest⟩ := List.head?_eq_some_iff.mp hhead
    rw [hrest] at h ⊢
    exact ⟨kept, .leave h, rfl⟩
  · refine ⟨line :: kept, .keep h, ?_⟩
    rw [show historyMax = 15 + 1 from rfl, List.take_succ_cons, List.take_succ_cons, List.take_take]
    rfl

/-! ## Runs -/

theorem ConsoleRun.kept {width height : Nat} {fs : State} {entered : List (List UInt8)} {c : ConsoleState}
    (hr : ConsoleRun Remembers width height fs entered c) : ∃ ed kept, Represents c ed ∧ c.Settled ∧
      Kept (entered.filter (· ≠ [])) kept ∧ ed.lines = kept.take historyMax := by
  induction hr with
  | init h =>
    rename_i now c
    obtain ⟨c', hc', hrep, hsettled, -⟩ := exists_consoleInit width height now fs
    obtain rfl := Except.ok.inj (h.symm.trans hc')
    exact ⟨_, [], hrep, hsettled, .nil, rfl⟩
  | key _ _ hm hevent ih =>
    obtain ⟨ed, kept, hrep, hsettled, hkept, hlines⟩ := ih
    obtain ⟨hrep', hsettled', -⟩ := of_event_key hrep hsettled hm hevent
    exact ⟨_, kept, hrep', hsettled', hkept, (key_lines _ _ ed).trans hlines⟩
  | enter _ hmay hm hevent _ ih =>
    obtain ⟨ed, kept, hrep, hsettled, hkept, hlines⟩ := ih
    obtain ⟨hrep', hsettled', -⟩ := of_event_enter hrep hsettled hm hevent
    have hremembers := hmay hm ed.lines (historyLines_eq hrep)
    rw [hrep.line_eq, hlines] at hremembers
    obtain ⟨kept', hkept', hlines'⟩ := kept_addHistory hkept hremembers
    refine ⟨_, kept', hrep', hsettled', ?_, ?_⟩
    · rw [hrep.line_eq]
      exact hkept'
    · rw [Editor.enter, hlines]
      exact hlines'
  | blink now frequency _ ih =>
    obtain ⟨ed, kept, hrep, hsettled, hkept, hlines⟩ := ih
    exact ⟨ed, kept, hrep.blink now frequency, hsettled.blink now frequency, hkept, hlines⟩

/-- After a line was entered, Up brings it back if and only if it was remembered. -/
theorem recalls_entered_iff {c c' : ConsoleState} {ed : Editor} (h : Represents c ed) (hs : c.Settled) {m : Moment}
    (hm : m.Enters) {effects : List Effect} (hevent : consoleEvent m c = .ok (effects, c')) (hne : c.line ≠ []) :
    Recalls c' c.line ↔ Remembers c m := by
  obtain ⟨hrep, hsettled, -⟩ := of_event_enter h hs hm hevent
  rw [h.line_eq] at hne ⊢
  rw [recalls_iff hrep hsettled hne, head?_addHistory hne, Remembers, h.line_eq]
  constructor
  · intro hall _ lines hlines
    obtain rfl := Except.ok.inj (hlines.symm.trans (historyLines_eq h))
    exact hall
  · intro hall
    exact hall hm ed.lines (historyLines_eq h)

/-- A key whose character is no command -/
structure NoCommand (key : Key) (ch : UInt8) : Prop extends Types key ch where
  words : consoleWords 8 [ch] = [[ch]]
  name : commandOf [ch] = none

theorem noCommand_a : NoCommand .a 97 := ⟨types_a, by decide, by decide⟩

theorem noCommand_b : NoCommand .b 98 := ⟨⟨by decide, by decide⟩, by decide, by decide⟩

/-- A run goes on with a line of this character. -/
theorem exists_letter {may : ConsoleState → Moment → Prop} {width height : Nat} {fs : State}
    {entered lines : List (List UInt8)} {c : ConsoleState} (hr : ConsoleRun may width height fs entered c)
    (hs : c.Settled) (hrep : Represents c ⟨[], [], lines, 0⟩) {key : Key} {ch : UInt8} (hkey : NoCommand key ch)
    (hmay : may c (press key ch))
    (henter : ∀ c', Represents c' ⟨[ch], [], lines, 0⟩ → may c' (press .enter newline)) :
    ∃ c', ConsoleRun may width height fs ([ch] :: entered) c' ∧ c'.Settled ∧
      Represents c' ⟨[], [], addHistory [ch] lines, 0⟩ := by
  obtain ⟨c₁, hr₁, hs₁, hrep₁, -⟩ := exists_typed hr hs hrep hkey.toTypes hmay
  have hinsert : (⟨[], [], lines, 0⟩ : Editor).insert ch = ⟨[ch], [], lines, 0⟩ := rfl
  rw [hinsert] at hrep₁
  obtain ⟨c₂, hr₂, hs₂, hrep₂, -⟩ := exists_entered hr₁ hs₁ hrep₁ hkey.words hkey.name (henter c₁ hrep₁)
  exact ⟨c₂, hr₂, hs₂, hrep₂⟩

/-- **The rows are the lines that were entered**, newest first and up to 16 of them, in every run over any filesystem
in which no line is entered that matches the oldest one kept and not the newest one; and the line entered next is
brought back by Up if and only if it keeps to that. -/
theorem history_recent {width height : Nat} {fs : State} {entered : List (List UInt8)} {c : ConsoleState}
    (hr : ConsoleRun Remembers width height fs entered c) : HoldsRecent entered c ∧
      ∀ {m effects c'}, m.Enters → consoleEvent m c = .ok (effects, c') → c.line ≠ [] →
        (Recalls c' c.line ↔ Remembers c m) := by
  obtain ⟨ed, kept, hrep, hsettled, hkept, hlines⟩ := hr.kept
  constructor
  · refine ⟨kept, hkept, ?_⟩
    rw [historyLines_eq hrep, hlines]
  · intro m effects c' hm hevent hne
    exact recalls_entered_iff hrep hsettled hm hevent hne

/-- Two lines on the second boot of a disk with a file on it -/
theorem history_recent_ab : ∃ s c, Reachable (blankDisk 65536) s ∧ (mount s.drive).2.records = writtenTable ∧
    ConsoleRun Remembers 640 480 (mount s.drive).2 [text "b", text "a"] c ∧
    HoldsRecent [text "b", text "a"] c := by
  obtain ⟨s, hs, -, hrec⟩ := exists_second_boot
  obtain ⟨c, hc, hrep, hsettled, -⟩ := exists_consoleInit 640 480 0 (mount s.drive).2
  -- there is no oldest line yet
  have henter₁ : ∀ c', Represents c' ⟨[97], [], [], 0⟩ → Remembers c' (press .enter newline) := by
    intro c' hrep' _ lines hlines
    obtain rfl := Except.ok.inj (hlines.symm.trans (historyLines_eq hrep'))
    exact fun _ hold => nomatch hold
  -- and then it is another one
  have henter₂ : ∀ c', Represents c' ⟨[98], [], [[97]], 0⟩ → Remembers c' (press .enter newline) := by
    intro c' hrep' _ lines hlines oldest hold hmatch
    obtain rfl := Except.ok.inj (hlines.symm.trans (historyLines_eq hrep'))
    obtain rfl := Option.some.inj hold
    rw [hrep'.line_eq] at hmatch
    exact absurd hmatch (by decide)
  obtain ⟨c₁, hr₁, hs₁, hrep₁⟩ := exists_letter (.init hc : ConsoleRun Remembers 640 480 _ _ c) hsettled hrep
    noCommand_a (fun henters => absurd henters types_a.not_enters) henter₁
  obtain ⟨c₂, hr₂, -⟩ := exists_letter hr₁ hs₁ hrep₁ noCommand_b
    (fun henters => absurd henters noCommand_b.not_enters) henter₂
  exact ⟨s, c₂, hs, hrec, hr₂, (history_recent hr₂).1⟩

/-- After `a`, `b` and `a` the rows hold `b` and `a`, and Up brings back `b`. -/
theorem history_forgets : ∃ c, AnyRun 640 480 (mount (blankDisk 65536)).2 [text "a", text "b", text "a"] c ∧
    ¬ HoldsRecent [text "a", text "b", text "a"] c ∧ ¬ Recalls c (text "a") := by
  obtain ⟨c, hc, hrep, hsettled, -⟩ := exists_consoleInit 640 480 0 (mount (blankDisk 65536)).2
  obtain ⟨c₁, hr₁, hs₁, hrep₁⟩ :=
    exists_letter (.init hc : AnyRun 640 480 _ _ c) hsettled hrep noCommand_a trivial fun _ _ => trivial
  obtain ⟨c₂, hr₂, hs₂, hrep₂⟩ := exists_letter hr₁ hs₁ hrep₁ noCommand_b trivial fun _ _ => trivial
  obtain ⟨c₃, hr₃, hs₃, hrep₃⟩ := exists_letter hr₂ hs₂ hrep₂ noCommand_a trivial fun _ _ => trivial
  have hlines : addHistory [97] (addHistory [98] (addHistory [97] [])) = [text "b", text "a"] := by decide
  rw [hlines] at hrep₃
  refine ⟨c₃, hr₃, ?_, ?_⟩
  · rintro ⟨kept, hkept, hheld⟩
    have htake := Except.ok.inj (hheld.symm.trans (historyLines_eq hrep₃))
    have hhead := hkept.head?_eq
    cases kept with
    | nil => nomatch hhead
    | cons newest kept =>
      rw [show historyMax = 15 + 1 from rfl, List.take_succ_cons] at htake
      rw [(List.cons.inj htake).1, List.head?_cons] at hhead
      exact absurd hhead (by decide)
  · rw [recalls_iff hrep₃ hs₃ (by decide)]
    decide

end MinOS.Console
