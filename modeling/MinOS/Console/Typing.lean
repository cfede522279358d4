/-
# MinOS.Console.Typing — from the keys of a keyboard to the shell.

Between a key and a command stand the decoder in `keyboard_irq`, the ring of `input.c`, and `console_poll`. To the
user there is a desk with less on it: keys that are up or down, caps lock, keys struck that were not looked at yet,
a line with a cursor in it, and a shell. What a key writes is what is printed on it.

The kernel and the desk answer alike (`keys_reach_shell`) for every order of key movements and polls, as long as at
most 63 movements come between two polls, no key of a modifier goes up while its other key is down, and Pause is not
struck with control down. With that, every printable line can be typed, and typing it runs it (`typed_line_runs`).
-/
import MinOS.Console.Editor
import MinOS.Keyboard.Held
import MinOS.Lib.UsKeyboard

namespace MinOS.Console

open MinOS.Vfs MinOS.Ata MinOS.Input Machine UsKeyboard
open MinOS.Keyboard (PhysicalKey Action Modifier Decoder Agrees Clear feed extendedKey keyForScancode eventCharacter
  pushKeyEvent setModifier modifierKey otherKey modShift modCaps)

/-! ## The kernel: keys and polls -/

/-- The keyboard driver, the ring, the console, and whether the machine was switched off -/
structure Terminal where
  decoder : Decoder
  queue : Queue
  console : ConsoleState
  off : Bool

/-- What a call of `console_poll` finds: `timer_ticks` at its start, and for its commands the rest of the kernel and
what is on the stack -/
structure Poll where
  now : UInt64
  env : Env
  junk : Junk

def Poll.moment (p : Poll) (event : Event) : Moment := ⟨event, p.now, p.env, p.junk⟩

/-- One interrupt for each byte of a key; `input_push` drops what finds the ring full. A machine that is off does not
take interrupts. -/
def Terminal.key (a : Action) (t : Terminal) : Terminal :=
  if t.off then t
  else
    { t with
      decoder := (feed a.bytes t.decoder).2
      queue := (feed a.bytes t.decoder).1.foldl (fun q event => (inputPush (some event) q).2) t.queue }

/-- `while (input_pop(&event) == 0)`. A command that switches the machine off does not return. -/
def drain (p : Poll) : (fuel : Nat) → Terminal → Except Crash (List Effect × Terminal)
  | 0, t => .ok ([], t)
  | fuel + 1, t =>
    if t.off then .ok ([], t)
    else
      match inputPop 1 t.queue with
      | (_, none, queue) => .ok ([], { t with queue })
      | (_, some event, queue) => do
        let (effects, console) ← consoleEvent (p.moment event) t.console
        let (rest, t) ← drain p fuel { t with queue, console, off := .halt ∈ effects }
        .ok (effects ++ rest, t)

/-- `console_poll`. The ring holds 63 events at most: the 64th `input_pop` finds it empty. -/
def consolePoll (p : Poll) (t : Terminal) : Except Crash (List Effect × Terminal) := do
  let (effects, t) ← drain p 64 t
  .ok (effects, if t.off then t else { t with console := blink p.now p.env.frequency t.console })

/-- A key moves, or the main loop comes to `console_poll`. -/
inductive Happening
  | key (a : Action)
  | poll (p : Poll)

def Happening.action : Happening → Option Action
  | .key a => some a
  | .poll _ => none

def Terminal.step (t : Terminal) : Happening → Except Crash (List Effect × Terminal)
  | .key a => .ok ([], t.key a)
  | .poll p => consolePoll p t

/-- After `keyboard_init` and `console_init` -/
def Terminal.start (c : ConsoleState) (q : Queue) : Terminal := ⟨Decoder.start, inputInit q, c, false⟩

/-! ## The desk -/

/-- What a key is for -/
inductive Purpose
  | insert (ch : UInt8)
  | tab | erase | left | right | older | newer
  /-- the cursor to the start and to the end -/
  | home | finish
  /-- without the line, or what is behind the cursor -/
  | wipe | cut
  | enter
  deriving DecidableEq

def Editor.act (prompt : Nat) (p : Purpose) (ed : Editor) : Editor :=
  match p with
  | .insert ch => ed.insert ch
  | .tab => ed.insertSpaces (tabSpaces (prompt + ed.before.length))
  | .erase => { ed with before := ed.before.dropLast }
  | .left =>
    match ed.before.getLast? with
    | some ch => { ed with before := ed.before.dropLast, after := ch :: ed.after }
    | none => ed
  | .right =>
    match ed.after with
    | ch :: after => { ed with before := ed.before ++ [ch], after }
    | [] => ed
  | .older => if ed.lines = [] then ed else ed.choose (min (ed.index + 1) ed.lines.length)
  | .newer => if ed.index = 0 then ed else ed.choose (ed.index - 1)
  | .home => { ed with before := [], after := ed.line }
  | .finish => ed.replace ed.line
  | .wipe => ed.replace []
  | .cut => ed.replace ed.before
  | .enter => ed

/-- What a key is for while these modifiers are on; with control four letters edit the line. -/
def purposeOf (cap : Keycap) (shift ctrl caps : Bool) : Option Purpose :=
  match cap with
  | .enter => some .enter
  | .backspace => some .erase
  | .tab => some .tab
  | .left => some .left
  | .right => some .right
  | .up => some .older
  | .down => some .newer
  | cap =>
    if ctrl ∧ cap = .letter 97 65 then some .home
    else if ctrl ∧ cap = .letter 101 69 then some .finish
    else if ctrl ∧ cap = .letter 117 85 then some .wipe
    else if ctrl ∧ cap = .letter 107 75 then some .cut
    else (cap.writes shift caps).map .insert

/-- What the user has in front of him -/
structure Desk where
  held : PhysicalKey → Bool
  caps : Bool
  waiting : List Purpose
  editor : Editor
  shell : Shell
  off : Bool

/-- The cap of a key -/
def capOf (key : PhysicalKey) : Keycap := keycap key.prefixed key.code

def Desk.purpose (d : Desk) (key : PhysicalKey) : Option Purpose :=
  purposeOf (capOf key) (decide (Modifier.shift.isHeld d.held)) (decide (Modifier.ctrl.isHeld d.held)) d.caps

/-- A key moves. -/
def Desk.key (a : Action) (d : Desk) : Desk :=
  match a with
  | .press key =>
    { d with
      held := (Action.press key).held d.held
      caps := if capOf key = .capsLock then !d.caps else d.caps
      waiting := d.waiting ++ (d.purpose key).toList }
  | .release key => { d with held := (Action.release key).held d.held }
  | .pause => d

/-- The keys struck take effect, up to a command that switches the machine off. -/
def Desk.catchUp (p : Poll) : List Purpose → Desk → Except Fault (List Effect × Desk)
  | [], d => .ok ([], { d with waiting := [] })
  | purpose :: purposes, d =>
    if d.off then .ok ([], { d with waiting := [] })
    else if purpose = .enter then do
      let (effects, shell) ← consoleCommandLine p.env (addHistory d.editor.line d.editor.lines) d.shell d.editor.line
      let (rest, d) ← Desk.catchUp p purposes { d with editor := d.editor.enter, shell, off := .halt ∈ effects }
      .ok (effects ++ rest, d)
    else Desk.catchUp p purposes { d with editor := d.editor.act (consolePromptColumns d.shell.cwd) purpose }

def Desk.step (d : Desk) : Happening → Except Fault (List Effect × Desk)
  | .key a => .ok ([], d.key a)
  | .poll p => d.catchUp p d.waiting

/-- No key is down, and the line is empty. -/
def Desk.start (shell : Shell) : Desk := ⟨fun _ => false, false, [], ⟨[], [], [], 0⟩, shell, false⟩

/-! ## When the two agree -/

/-- The decoder keeps the modifiers right: no key of a pair goes up while the other is down, and Pause is not struck
with control down, which its codes would release. -/
def Harmless (a : Action) (held : PhysicalKey → Bool) : Prop :=
  match a with
  | .press _ => True
  | .release key => Clear (.release key) held
  | .pause => ¬ Modifier.ctrl.isHeld held

/-- The events of an action, at most -/
def movements : Action → Nat
  | .press _ | .release _ => 1
  | .pause => 2

/-- Every action is harmless, and between two polls there are at most 63 events. -/
def Fair (held : PhysicalKey → Bool) (moved : Nat) : List Happening → Prop
  | [] => True
  | .key a :: hs => Harmless a held ∧ moved + movements a ≤ 63 ∧ Fair (a.held held) (moved + movements a) hs
  | .poll _ :: hs => Fair held 0 hs

/-! ## What an event is for -/

/-- The branches of `console_poll` for the other keys -/
def editPurpose (event : Event) : Option Purpose :=
  if event.key = .backspace then some .erase
  else if event.key = .tab then some .tab
  else if event.key = .left then some .left
  else if event.key = .right then some .right
  else if event.key = .up then some .older
  else if event.key = .down then some .newer
  else if event.modifiers &&& modCtrl ≠ 0 ∧ event.key = .a then some .home
  else if event.modifiers &&& modCtrl ≠ 0 ∧ event.key = .e then some .finish
  else if event.modifiers &&& modCtrl ≠ 0 ∧ event.key = .u then some .wipe
  else if event.modifiers &&& modCtrl ≠ 0 ∧ event.key = .k then some .cut
  else if 32 ≤ event.character ∧ event.character ≤ 126 then some (.insert event.character)
  else none

/-- The branch of `console_poll` an event takes -/
def eventPurpose (event : Event) : Option Purpose :=
  if event.pressed = 0 then none else if event.key = .enter then some .enter else editPurpose event

theorem ite_ne {α : Type} {c : Prop} [Decidable c] {a b x : α} (ha : a ≠ x) (hb : b ≠ x) :
    (if c then a else b) ≠ x := by
  split
  · exact ha
  · exact hb

theorem editPurpose_ne_enter (event : Event) : editPurpose event ≠ some .enter := by
  unfold editPurpose
  repeat refine ite_ne (by decide) ?_
  exact ite_ne (by simp) (by simp)

theorem eventPurpose_enter_iff (event : Event) :
    eventPurpose event = some .enter ↔ event.pressed ≠ 0 ∧ event.key = .enter := by
  rw [eventPurpose]
  split
  · rename_i hpressed
    simp [hpressed]
  · rename_i hpressed
    split
    · rename_i hkey
      simp [hpressed, hkey]
    · rename_i hkey
      simp [hkey, editPurpose_ne_enter]

/-- Two chains of branches, one of them with `f` behind it -/
theorem ite_eq_apply {α β : Type} {c : Prop} [Decidable c] {a b : β} {o o' : α} (f : α → β) (h : a = f o)
    (h' : b = f o') : (if c then a else b) = f (if c then o else o') := by
  split
  · exact h
  · exact h'

theorem act_tab (prompt : Nat) (ed : Editor) :
    ed.act prompt .tab = ed.insertSpaces (tabSpaces (prompt + ed.before.length)) := by
  simp only [Editor.act]

/-- The editor does what the event is for. -/
theorem key_eq_act {event : Event} (henter : ¬ (event.pressed ≠ 0 ∧ event.key = .enter)) (prompt : Nat)
    (ed : Editor) : ed.key prompt event = (eventPurpose event).elim ed fun p => ed.act prompt p := by
  unfold Editor.key eventPurpose
  by_cases hpressed : event.pressed = 0
  · rw [if_pos hpressed, if_pos hpressed]
    rfl
  · rw [if_neg hpressed, if_neg hpressed, if_neg fun h => henter ⟨hpressed, h⟩, editPurpose]
    have htab : ed.insertSpaces (tabSpaces (prompt + ed.before.length))
        = (some Purpose.tab).elim ed fun p => ed.act prompt p := by
      rw [Option.elim_some, act_tab]
    refine ite_eq_apply (fun o : Option Purpose => o.elim ed fun p => ed.act prompt p) rfl ?_
    refine ite_eq_apply (fun o : Option Purpose => o.elim ed fun p => ed.act prompt p) htab ?_
    iterate 9 refine ite_eq_apply (fun o : Option Purpose => o.elim ed fun p => ed.act prompt p) rfl ?_
    rfl

/-- The bits of the modifiers -/
def bits (shift ctrl caps : Bool) : UInt8 :=
  (if shift then modShift else 0) ||| (if ctrl then Keyboard.modCtrl else 0)
    ||| (if caps then modCaps else 0)

theorem bits_and (shift ctrl caps : Bool) :
    (bits shift ctrl caps &&& modShift != 0) = shift ∧
    (bits shift ctrl caps &&& Keyboard.modCtrl != 0) = ctrl ∧
    (bits shift ctrl caps &&& modCaps != 0) = caps := by
  revert shift ctrl caps
  decide

/-- The key the driver takes a code for -/
def keyOf (prefixed : Bool) (code : UInt8) : Key := if prefixed then extendedKey code else keyForScancode code

/-- The event of a key that goes down, no modifier -/
def pressed (prefixed : Bool) (code modifiers modifiers' : UInt8) : Event :=
  ⟨keyOf prefixed code, 1, modifiers,
    eventCharacter (keyOf prefixed code) code 0 (if prefixed then 1 else 0) modifiers'⟩

/-- **The tables of the driver against the keycaps.** Only on the caps lock key itself it matters whether caps lock is
looked at before or after. -/
theorem purpose_table : ∀ code : UInt8, code ≠ 0x1D → code ≠ 0x38 → ∀ prefixed shift ctrl caps caps',
    (caps' = caps ∨ keyOf prefixed code = .capsLock) →
    (if keyOf prefixed code = .none then none
      else eventPurpose (pressed prefixed code (bits shift ctrl caps) (bits shift ctrl caps'))) =
      purposeOf (keycap prefixed code) shift ctrl caps ∧
    (keyOf prefixed code = .capsLock ↔ keycap prefixed code = .capsLock) := by
  decide +kernel

/-! ## What the driver makes of an action -/

/-- The bit of caps lock -/
def capsOf (modifiers : UInt8) : Bool := modifiers &&& modCaps != 0

theorem eventCharacter_bits (key : Key) (code released extended modifiers : UInt8) (ctrl : Bool) :
    eventCharacter key code released extended modifiers
      = eventCharacter key code released extended
        (bits (modifiers &&& modShift != 0) ctrl (capsOf modifiers)) := by
  obtain ⟨hshift, -, hcaps⟩ := bits_and (modifiers &&& modShift != 0) ctrl (capsOf modifiers)
  unfold eventCharacter
  rw [hshift, hcaps]
  rfl

theorem eventPurpose_bits (key : Key) (down modifiers character : UInt8) (shift caps : Bool) :
    eventPurpose ⟨key, down, modifiers, character⟩
      = eventPurpose ⟨key, down, bits shift (modifiers &&& Keyboard.modCtrl != 0) caps, character⟩ := by
  have hctrl : (bits shift (modifiers &&& Keyboard.modCtrl != 0) caps &&& modCtrl ≠ 0)
      = (modifiers &&& modCtrl ≠ 0) := by
    have h := (bits_and shift (modifiers &&& Keyboard.modCtrl != 0) caps).2.1
    rw [← bne_iff_ne, ← bne_iff_ne]
    exact congrArg (· = true) h
  unfold eventPurpose editPurpose
  simp only [hctrl]

/-- Caps lock is turned by its own key, and by no other. -/
theorem capsOf_xor (m : UInt8) : capsOf (m ^^^ modCaps) = !capsOf m := by
  revert m
  decide +kernel

theorem capsOf_setModifier (m : Modifier) (released modifiers : UInt8) :
    capsOf (setModifier m.bit released modifiers) = capsOf modifiers := by
  have hset : ∀ b : UInt8, capsOf (b ||| m.bit) = capsOf b ∧ capsOf (b &&& ~~~m.bit) = capsOf b := by
    cases m <;> decide +kernel
  rw [setModifier]
  split
  · exact (hset modifiers).2
  · exact (hset modifiers).1

theorem filterMap_singleton {α β : Type} (f : α → Option β) (a : α) : [a].filterMap f = (f a).toList := by
  rw [List.filterMap_cons]
  cases f a <;> rfl

/-- A key that goes down and is no modifier -/
theorem otherKey_press (prefixed : Bool) {code : UInt8} (hctrl : code ≠ 0x1D) (halt : code ≠ 0x38)
    (modifiers : UInt8) :
    (otherKey code 0 ⟨modifiers, if prefixed then 1 else 0⟩).1.filterMap eventPurpose
      = (purposeOf (keycap prefixed code) (modifiers &&& modShift != 0)
          (modifiers &&& Keyboard.modCtrl != 0) (capsOf modifiers)).toList ∧
    capsOf (otherKey code 0 ⟨modifiers, if prefixed then 1 else 0⟩).2.modifiers
      = if keycap prefixed code = .capsLock then !capsOf modifiers else capsOf modifiers := by
  have hkey : (if (if prefixed then (1 : UInt8) else 0) ≠ 0 then extendedKey code else keyForScancode code)
      = keyOf prefixed code := by
    cases prefixed <;> rfl
  simp only [otherKey, hkey, and_true, ne_eq, not_true_eq_false, if_false]
  generalize hm : (if keyOf prefixed code = .capsLock then modifiers ^^^ modCaps else modifiers) = modifiers'
  have hshift : modifiers' &&& modShift = modifiers &&& modShift := by
    rw [← hm]
    split
    · exact Keyboard.xor_caps_bit modifiers .shift
    · rfl
  have hcaps : capsOf modifiers' = capsOf modifiers ∨ keyOf prefixed code = .capsLock := by
    rw [← hm]
    split
    · rename_i h
      exact Or.inr h
    · exact Or.inl rfl
  obtain ⟨htable, hlock⟩ := purpose_table code hctrl halt prefixed (modifiers &&& modShift != 0)
    (modifiers &&& Keyboard.modCtrl != 0) (capsOf modifiers) (capsOf modifiers') hcaps
  constructor
  · rw [← htable]
    by_cases hnone : keyOf prefixed code = .none
    · rw [if_neg (not_not.mpr hnone), if_pos hnone]
      rfl
    · rw [if_pos hnone, if_neg hnone, filterMap_singleton,
        eventPurpose_bits _ _ _ _ (modifiers &&& modShift != 0) (capsOf modifiers),
        eventCharacter_bits _ _ _ _ modifiers' (modifiers &&& Keyboard.modCtrl != 0), hshift]
      rfl
  · rw [← hm, if_congr hlock.symm rfl rfl]
    split
    · exact capsOf_xor modifiers
    · rfl

/-- A key that goes up and is no modifier -/
theorem otherKey_release (code : UInt8) {released : UInt8} (hreleased : released ≠ 0) (k : Decoder) :
    (otherKey code released k).1.filterMap eventPurpose = [] ∧
      (otherKey code released k).2.modifiers = k.modifiers := by
  simp only [otherKey, if_pos hreleased, hreleased, and_false, if_false]
  generalize (if k.extended ≠ 0 then extendedKey code else keyForScancode code) = id
  refine ⟨?_, trivial⟩
  split
  · rfl
  · rfl

theorem length_otherKey (code released : UInt8) (k : Decoder) : (otherKey code released k).1.length ≤ 1 := by
  simp only [otherKey]
  generalize (if k.extended ≠ 0 then extendedKey code else keyForScancode code) = id
  split
  · exact le_rfl
  · exact Nat.zero_le 1

/-- The decoder has the keys of the desk. -/
structure Heard (k : Decoder) (d : Desk) : Prop where
  whole : k.extended = 0
  bits : Agrees k.modifiers d.held
  caps : capsOf k.modifiers = d.caps

/-- What an action does beside its bits: what it is for, and caps lock -/
structure Told (a : Action) (k : Decoder) (d : Desk) : Prop where
  waiting : (d.key a).waiting = d.waiting ++ (feed a.bytes k).1.filterMap eventPurpose
  caps : capsOf (feed a.bytes k).2.modifiers = (d.key a).caps
  length : (feed a.bytes k).1.length ≤ movements a

section Action

variable {k : Decoder} {key : PhysicalKey} {data : UInt8} {m : Modifier} {d : Desk}

theorem capOf_modifier (hkey : m.has key) : capOf key = .blank := by
  rcases hkey with rfl | rfl
  · cases m <;> decide
  · cases m <;> decide

/-- The event of a modifier key is for nothing. -/
theorem feed_modifier_purpose (hk : k.extended = 0) (hdata : key.Sends data) (hkey : m.has key) :
    (feed (key.bytes data) k).1.filterMap eventPurpose = [] ∧ (feed (key.bytes data) k).1.length = 1 ∧
      capsOf (feed (key.bytes data) k).2.modifiers = capsOf k.modifiers := by
  have hfeed : ∃ id ∈ [Key.leftShift, .rightShift, .leftCtrl, .rightCtrl, .leftAlt, .rightAlt],
      feed (key.bytes data) k =
        ([pushKeyEvent id (data &&& 0x80) (setModifier m.bit (data &&& 0x80) k.modifiers)],
          ⟨setModifier m.bit (data &&& 0x80) k.modifiers, 0⟩) := by
    have hplain := (Keyboard.feed_plain data k).trans (Keyboard.decode_eq hdata k)
    have hprefixed := (Keyboard.feed_prefixed data k).trans (Keyboard.decode_eq hdata _)
    rcases hkey with rfl | rfl
    · cases m with
      | shift => exact ⟨.leftShift, by simp, hplain.trans (by simp [Modifier.left, hk, modifierKey, Modifier.bit])⟩
      | ctrl => exact ⟨.leftCtrl, by simp, hplain.trans (by simp [Modifier.left, hk, modifierKey, Modifier.bit])⟩
      | alt => exact ⟨.leftAlt, by simp, hplain.trans (by simp [Modifier.left, hk, modifierKey, Modifier.bit])⟩
    · cases m with
      | shift => exact ⟨.rightShift, by simp, hplain.trans (by simp [Modifier.right, hk, modifierKey, Modifier.bit])⟩
      | ctrl => exact ⟨.rightCtrl, by simp, hprefixed.trans (by simp [Modifier.right, modifierKey, Modifier.bit])⟩
      | alt => exact ⟨.rightAlt, by simp, hprefixed.trans (by simp [Modifier.right, modifierKey, Modifier.bit])⟩
  obtain ⟨id, hid, hfeed⟩ := hfeed
  have hnone : ∀ released modifiers, eventPurpose (pushKeyEvent id released modifiers) = none := by
    intro released modifiers
    simp only [List.mem_cons, List.not_mem_nil, or_false] at hid
    rcases hid with rfl | rfl | rfl | rfl | rfl | rfl <;>
      simp [pushKeyEvent, eventPurpose, editPurpose]
  rw [hfeed]
  refine ⟨?_, rfl, capsOf_setModifier _ _ _⟩
  rw [filterMap_singleton, hnone]
  rfl

/-- A key that goes down -/
theorem told_press (h : Heard k d) (key : PhysicalKey) : Told (.press key) k d := by
  have hzero : key.code &&& 0x80 = 0 := (Keyboard.code_bytes key.code key.valid).1.2.2.2
  by_cases hmod : ∃ m : Modifier, m.has key
  · obtain ⟨m, hm⟩ := hmod
    obtain ⟨hnone, hlength, hcaps⟩ := feed_modifier_purpose h.whole key.sends_press hm
    have hblank := capOf_modifier hm
    refine ⟨?_, ?_, hlength.le⟩
    · show d.waiting ++ (d.purpose key).toList = d.waiting ++ _
      have hpurpose : d.purpose key = none := by
        rw [Desk.purpose, hblank]
        simp [purposeOf, Keycap.writes]
      rw [hpurpose]
      exact congrArg (d.waiting ++ ·) hnone.symm
    · show _ = if capOf key = .capsLock then !d.caps else d.caps
      rw [hblank, if_neg (by decide), ← h.caps]
      exact hcaps
  · have hnone : ∀ m : Modifier, ¬ m.has key := fun m hm => hmod ⟨m, hm⟩
    have hctrl : key.code ≠ 0x1D := by
      intro hcode
      obtain ⟨prefixed, code, hvalid⟩ := key
      subst hcode
      cases prefixed
      · exact hnone .ctrl (Or.inl rfl)
      · exact hnone .ctrl (Or.inr rfl)
    have halt : key.code ≠ 0x38 := by
      intro hcode
      obtain ⟨prefixed, code, hvalid⟩ := key
      subst hcode
      cases prefixed
      · exact hnone .alt (Or.inl rfl)
      · exact hnone .alt (Or.inr rfl)
    have hbit : ∀ m : Modifier, (k.modifiers &&& m.bit != 0) = decide (m.isHeld d.held) := by
      intro m
      rw [Bool.eq_iff_iff, bne_iff_ne, decide_eq_true_iff]
      exact h.bits m
    obtain ⟨hpurpose, hcaps⟩ := otherKey_press key.prefixed hctrl halt k.modifiers
    have hfeed : feed (Action.press key).bytes k
        = otherKey key.code 0 ⟨k.modifiers, if key.prefixed then 1 else 0⟩ := by
      have hother := Keyboard.feed_other h.whole key.sends_press hnone
      rwa [hzero] at hother
    refine ⟨?_, ?_, ?_⟩
    · show d.waiting ++ (d.purpose key).toList = d.waiting ++ _
      rw [hfeed, hpurpose, Desk.purpose, ← hbit, ← hbit, ← h.caps]
      rfl
    · rw [hfeed, hcaps, h.caps]
      rfl
    · rw [hfeed]
      exact length_otherKey _ _ _

/-- A key that goes up -/
theorem told_release (h : Heard k d) (key : PhysicalKey) : Told (.release key) k d := by
  have hne : (key.code ||| 0x80) &&& 0x80 ≠ 0 := (Keyboard.code_bytes key.code key.valid).2.2.2.2
  by_cases hmod : ∃ m : Modifier, m.has key
  · obtain ⟨m, hm⟩ := hmod
    obtain ⟨hnone, hlength, hcaps⟩ := feed_modifier_purpose h.whole key.sends_release hm
    refine ⟨?_, ?_, hlength.le⟩
    · show d.waiting = d.waiting ++ _
      rw [show (feed (Action.release key).bytes k).1.filterMap eventPurpose = [] from hnone, List.append_nil]
    · rw [show (Desk.key (.release key) d).caps = d.caps from rfl, ← h.caps]
      exact hcaps
  · have hfeed : feed (Action.release key).bytes k
        = otherKey key.code ((key.code ||| 0x80) &&& 0x80) ⟨k.modifiers, if key.prefixed then 1 else 0⟩ :=
      Keyboard.feed_other h.whole key.sends_release fun m hm => hmod ⟨m, hm⟩
    obtain ⟨hnone, hsame⟩ := otherKey_release key.code hne
      ⟨k.modifiers, if key.prefixed then 1 else 0⟩
    refine ⟨?_, ?_, ?_⟩
    · rw [hfeed, hnone, List.append_nil]
      rfl
    · rw [hfeed, hsame, h.caps]
      rfl
    · rw [hfeed]
      exact length_otherKey _ _ _

/-- Pause presses and releases control. -/
theorem told_pause (h : Heard k d) : Told .pause k d := by
  have hfeed : feed Action.pause.bytes k = _ := Keyboard.feed_pause h.whole
  have hcaps : ∀ b : UInt8, capsOf ((b ||| Keyboard.modCtrl) &&& ~~~Keyboard.modCtrl) = capsOf b := by
    decide +kernel
  refine ⟨?_, ?_, ?_⟩
  · rw [hfeed]
    simp [pushKeyEvent, eventPurpose, editPurpose, Desk.key]
  · rw [hfeed, hcaps, h.caps]
    rfl
  · rw [hfeed]
    exact le_rfl

/-- **The decoder follows the desk**, through everything that is harmless. -/
theorem Heard.after (h : Heard k d) {a : Action} (ha : Harmless a d.held) :
    Heard (feed a.bytes k).2 (d.key a) ∧ Told a k d := by
  have hwhole := Keyboard.feed_bytes_extended a h.whole
  cases a with
  | press key => exact ⟨⟨hwhole, (Keyboard.right_press h.whole h.bits key).modifiers, (told_press h key).caps⟩,
      told_press h key⟩
  | release key =>
    have hright := (Keyboard.right_release_iff h.whole h.bits key).mpr ha
    exact ⟨⟨hwhole, hright.modifiers, (told_release h key).caps⟩, told_release h key⟩
  | pause =>
    refine ⟨⟨hwhole, ?_, (told_pause h).caps⟩, told_pause h⟩
    have hfeed : feed Action.pause.bytes k = _ := Keyboard.feed_pause h.whole
    rw [hfeed]
    intro m
    show (k.modifiers ||| Modifier.ctrl.bit) &&& ~~~Modifier.ctrl.bit &&& m.bit ≠ 0 ↔ m.isHeld d.held
    rw [Keyboard.and_not_bit_iff, Keyboard.or_bit_iff, h.bits m]
    constructor
    · rintro ⟨hne, hm⟩
      exact hm.resolve_left hne
    · intro hm
      refine ⟨?_, Or.inr hm⟩
      rintro rfl
      exact ha hm

end Action

/-! ## The ring -/

theorem length_contents (q : Queue) : q.contents.length = q.count := Ring.length_window _ _ _ _

/-- Events that find room are queued. -/
theorem pushAll {q : Queue} (hq : q.Bounded) : ∀ (events : List Event),
    q.contents.length + events.length ≤ 63 →
      (events.foldl (fun q event => (inputPush (some event) q).2) q).Bounded ∧
      (events.foldl (fun q event => (inputPush (some event) q).2) q).contents = q.contents ++ events := by
  intro events
  induction events generalizing q with
  | nil =>
    intro _
    exact ⟨hq, (List.append_nil _).symm⟩
  | cons event events ih =>
    intro hroom
    rw [List.length_cons] at hroom
    have hcount : q.count ≠ 63 := by
      rw [← length_contents]
      omega
    have hok : (inputPush (some event) q).1 = 0 := by
      have hrefused := (not_congr (inputPush_refused_iff hq event)).mpr hcount
      rw [inputPush] at hrefused ⊢
      split
      · rename_i hfull
        rw [if_pos hfull] at hrefused
        exact absurd rfl hrefused
      · rfl
    obtain ⟨hq', hcontents⟩ := inputPush_accepted hq hok
    obtain ⟨hbounded, hall⟩ := ih hq' (by rw [hcontents, List.length_append, List.length_singleton]; omega)
    rw [List.foldl_cons]
    refine ⟨hbounded, ?_⟩
    rw [hall, hcontents, List.append_assoc, List.singleton_append]

theorem inputPop_nil {q : Queue} (hq : q.Bounded) (h : q.contents = []) : inputPop 1 q = (-1, none, q) := by
  have hcount : q.count = 0 := by rw [← length_contents, h, List.length_nil]
  rw [inputPop, if_pos]
  rw [popRefused, (read_eq_write_iff hq).mpr hcount]
  simp

theorem inputPop_cons {q : Queue} (hq : q.Bounded) {event : Event} {events : List Event}
    (h : q.contents = event :: events) :
    inputPop 1 q = (0, some event, popRelease q) ∧ (popRelease q).Bounded ∧ (popRelease q).contents = events := by
  have hcount : q.count ≠ 0 := by
    rw [← length_contents, h, List.length_cons]
    exact Nat.succ_ne_zero _
  obtain ⟨hbounded, hcontents⟩ := popRelease_contents hq hcount
  obtain ⟨hevent, hevents⟩ := List.cons.inj (h.symm.trans hcontents)
  have hopen : popRefused 1 q = false := by
    have hne := (not_congr (read_eq_write_iff hq)).mpr hcount
    simp [popRefused, hne]
  refine ⟨?_, hbounded, hevents.symm⟩
  rw [inputPop, hopen, hevent]
  rfl

/-! ## The loop of `console_poll` -/

/-- The console has the line of the desk and its shell, over a well-formed filesystem. -/
structure Mirrors (t : Terminal) (d : Desk) : Prop where
  off : t.off = d.off
  shell : t.console.shell = d.shell
  line : Represents t.console d.editor
  settled : t.console.Settled
  ready : Ready t.console.shell

/-- **One event** -/
theorem Mirrors.event {t : Terminal} {d : Desk} (h : Mirrors t d) (p : Poll) (event : Event) :
    ∃ effects console shell editor, consoleEvent (p.moment event) t.console = .ok (effects, console) ∧
      Mirrors { t with console, off := .halt ∈ effects } { d with shell, editor, off := .halt ∈ effects } ∧
      (eventPurpose event = some .enter → editor = d.editor.enter ∧
        consoleCommandLine p.env (addHistory d.editor.line d.editor.lines) d.shell d.editor.line =
          .ok (effects, shell)) ∧
      (eventPurpose event ≠ some .enter → effects = [] ∧ shell = d.shell ∧
        editor = (eventPurpose event).elim d.editor fun purpose =>
          d.editor.act (consolePromptColumns d.shell.cwd) purpose) := by
  by_cases henter : (p.moment event).Enters
  · obtain ⟨effects, shell, hexec, -, hchanges⟩ := execute_ok h.ready
      ⟨d.editor.line, h.line.command.2, h.line.command.length_le⟩ p.env (addHistory d.editor.line d.editor.lines)
    obtain ⟨console, hconsole, hline, hsettled, hshell⟩ := exists_event_enter h.line h.settled henter hexec
    refine ⟨effects, console, _, _, hconsole, ⟨rfl, hshell, hline, hsettled, ?_⟩, fun _ => ⟨rfl, ?_⟩, fun hne => ?_⟩
    · rw [hshell]
      exact hchanges.ready h.ready
    · rw [← h.shell]
      exact hexec
    · exact absurd ((eventPurpose_enter_iff event).mpr henter) hne
  · obtain ⟨console, hconsole, hline, hsettled, hshell, -⟩ := exists_event_key h.line h.settled henter
    refine ⟨[], console, _, _, hconsole, ⟨rfl, rfl, hline, hsettled, hshell ▸ h.ready⟩, fun heq => ?_,
      fun _ => ⟨rfl, hshell.trans h.shell, ?_⟩⟩
    · exact absurd ((eventPurpose_enter_iff event).mp heq) henter
    · rw [h.shell]
      exact key_eq_act henter _ _

/-- A desk whose machine is off does nothing more. -/
theorem catchUp_off {d : Desk} (hoff : d.off = true) (p : Poll) (purposes : List Purpose) :
    d.catchUp p purposes = .ok ([], { d with waiting := [] }) := by
  cases purposes with
  | nil => rfl
  | cons purpose purposes => rw [Desk.catchUp, if_pos hoff]

/-- What a loop over all events has done -/
structure Caught (t t' : Terminal) (d d' : Desk) : Prop where
  shown : Mirrors t' d'
  waiting : d'.waiting = []
  held : d'.held = d.held
  caps : d'.caps = d.caps
  decoder : t'.decoder = t.decoder
  queue : t'.off = false → t'.queue.Bounded ∧ t'.queue.contents = []

/-- **The loop over the events is the desk's over the keys struck.** -/
theorem Mirrors.loop (p : Poll) {events : List Event} : ∀ {t : Terminal} {d : Desk} (fuel : Nat), Mirrors t d →
    t.queue.Bounded → t.queue.contents = events → events.length < fuel →
      ∃ effects t' d', drain p fuel t = .ok (effects, t') ∧
        d.catchUp p (events.filterMap eventPurpose) = .ok (effects, d') ∧ Caught t t' d d' := by
  induction events with
  | nil =>
    intro t d fuel h hq hcontents hfuel
    obtain ⟨fuel, rfl⟩ := Nat.exists_eq_succ_of_ne_zero (Nat.ne_of_gt hfuel)
    refine ⟨[], t, { d with waiting := [] }, ?_, rfl, ?_⟩
    · rw [drain]
      split
      · rfl
      · rw [inputPop_nil hq hcontents]
    · exact ⟨⟨h.off, h.shell, h.line, h.settled, h.ready⟩, rfl, rfl, rfl, rfl, fun _ => ⟨hq, hcontents⟩⟩
  | cons event events ih =>
    intro t d fuel h hq hcontents hfuel
    rw [List.length_cons] at hfuel
    obtain ⟨fuel, rfl⟩ := Nat.exists_eq_succ_of_ne_zero (Nat.ne_zero_of_lt hfuel)
    by_cases hoff : t.off = true
    · refine ⟨[], t, { d with waiting := [] }, ?_, catchUp_off (h.off.symm.trans hoff) p _, ?_⟩
      · rw [drain, if_pos hoff]
      · refine ⟨⟨h.off, h.shell, h.line, h.settled, h.ready⟩, rfl, rfl, rfl, rfl, fun hon => ?_⟩
        rw [hoff] at hon
        cases hon
    · obtain ⟨hpop, hq', hcontents'⟩ := inputPop_cons hq hcontents
      obtain ⟨effects, console, shell, editor, hconsole, hmirrors, henter, hother⟩ := h.event p event
      obtain ⟨rest, t', d', hdrain, hcatch, hcaught⟩ :=
        ih (t := { t with queue := popRelease t.queue, console, off := .halt ∈ effects })
          (d := { d with shell, editor, off := .halt ∈ effects }) fuel
          ⟨hmirrors.off, hmirrors.shell, hmirrors.line, hmirrors.settled, hmirrors.ready⟩ hq' hcontents' (by omega)
      have hon : ¬ d.off = true := fun hd => hoff (h.off.trans hd)
      refine ⟨effects ++ rest, t', d', ?_, ?_, ⟨hcaught.shown, hcaught.waiting, hcaught.held, hcaught.caps,
        hcaught.decoder, hcaught.queue⟩⟩
      · rw [drain, if_neg hoff, hpop]
        simp only [hconsole, ok_bind, hdrain]
      · by_cases hpurpose : eventPurpose event = some .enter
        · obtain ⟨rfl, hexec⟩ := henter hpurpose
          rw [List.filterMap_cons_some hpurpose, Desk.catchUp, if_neg hon, if_pos rfl, hexec, ok_bind]
          simp only [hcatch, ok_bind]
        · obtain ⟨rfl, rfl, heditor⟩ := hother hpurpose
          have hdesk : ({ d with editor, off := .halt ∈ ([] : List Effect) } : Desk) = { d with editor } := by
            simp [hon]
          rw [hdesk, heditor] at hcatch
          cases heq : eventPurpose event with
          | none =>
            rw [heq, Option.elim_none] at hcatch
            rw [List.filterMap_cons_none heq]
            exact hcatch
          | some purpose =>
            rw [heq, Option.elim_some] at hcatch
            have hne : ¬ purpose = .enter := fun hp => hpurpose (heq.trans (congrArg some hp))
            rw [List.filterMap_cons_some heq, Desk.catchUp, if_neg hon, if_neg hne]
            exact hcatch

/-! ## Whole runs -/

/-- While the machine is on, what waits in the ring is what waits at the desk. -/
structure Listens (t : Terminal) (d : Desk) (moved : Nat) : Prop where
  heard : Heard t.decoder d
  queue : t.queue.Bounded
  waiting : t.queue.contents.filterMap eventPurpose = d.waiting
  moved : t.queue.contents.length ≤ moved

/-- The invariant; `moved` counts the events since the last poll. -/
structure Seated (t : Terminal) (d : Desk) (moved : Nat) : Prop where
  shown : Mirrors t d
  listens : t.off = false → Listens t d moved

variable {t : Terminal} {d : Desk} {moved : Nat}

theorem Desk.key_editor (a : Action) (d : Desk) :
    (d.key a).editor = d.editor ∧ (d.key a).shell = d.shell ∧ (d.key a).off = d.off := by
  cases a <;> exact ⟨rfl, rfl, rfl⟩

theorem Desk.key_held (a : Action) (d : Desk) : (d.key a).held = a.held d.held := by
  cases a <;> rfl

/-- **A key moves.** -/
theorem Seated.key (h : Seated t d moved) {a : Action} (ha : Harmless a d.held) (hroom : moved + movements a ≤ 63) :
    Seated (t.key a) (d.key a) (moved + movements a) := by
  obtain ⟨heditor, hshell, hoff⟩ := Desk.key_editor a d
  rw [Terminal.key]
  split
  · rename_i hdead
    refine ⟨⟨h.shown.off.trans hoff.symm, h.shown.shell.trans hshell.symm, heditor ▸ h.shown.line, h.shown.settled,
      h.shown.ready⟩,
      fun hon => ?_⟩
    rw [hdead] at hon
    cases hon
  · rename_i hon
    have hlistens := h.listens (Bool.eq_false_iff.mpr hon)
    obtain ⟨hheard, htold⟩ := hlistens.heard.after ha
    have hlength := htold.length
    have hmoved := hlistens.moved
    obtain ⟨hbounded, hcontents⟩ :=
      pushAll hlistens.queue (feed a.bytes t.decoder).1 (by omega)
    refine ⟨⟨h.shown.off.trans hoff.symm, h.shown.shell.trans hshell.symm, heditor ▸ h.shown.line, h.shown.settled,
      h.shown.ready⟩,
      fun _ => ⟨hheard, hbounded, ?_, ?_⟩⟩
    · rw [hcontents, List.filterMap_append, hlistens.waiting, htold.waiting]
    · rw [hcontents, List.length_append]
      omega

/-- **The main loop polls.** -/
theorem Seated.poll (h : Seated t d moved) (hmoved : moved ≤ 63) (p : Poll) : ∃ effects t' d',
    t.step (.poll p) = .ok (effects, t') ∧ d.step (.poll p) = .ok (effects, d') ∧ Seated t' d' 0 ∧
      d'.held = d.held := by
  have hblink : ∀ {t' : Terminal} {d' : Desk}, Mirrors t' d' →
      Mirrors (if t'.off then t' else { t' with console := blink p.now p.env.frequency t'.console }) d' := by
    intro t' d' hshown
    split
    · exact hshown
    · obtain ⟨cursorVisible, cursorTick, heq⟩ := blink_eq p.now p.env.frequency t'.console
      have hshell : (blink p.now p.env.frequency t'.console).shell = t'.console.shell := by rw [heq]
      exact ⟨hshown.off, hshell.trans hshown.shell, hshown.line.blink _ _, hshown.settled.blink _ _,
        hshell ▸ hshown.ready⟩
  by_cases hoff : t.off = true
  · refine ⟨[], t, { d with waiting := [] }, ?_, catchUp_off (h.shown.off.symm.trans hoff) p _, ?_, rfl⟩
    · rw [Terminal.step, consolePoll, drain, if_pos hoff, ok_bind]
      simp only [hoff, if_true]
    · refine ⟨⟨h.shown.off, h.shown.shell, h.shown.line, h.shown.settled, h.shown.ready⟩, fun hon => ?_⟩
      rw [hoff] at hon
      cases hon
  · have hlistens := h.listens (Bool.eq_false_iff.mpr hoff)
    have hlength := hlistens.moved
    obtain ⟨effects, t', d', hdrain, hcatch, hcaught⟩ :=
      h.shown.loop p 64 hlistens.queue rfl (by omega)
    rw [hlistens.waiting] at hcatch
    refine ⟨effects, _, d', ?_, hcatch, ⟨hblink hcaught.shown, fun hon => ?_⟩, hcaught.held⟩
    · rw [Terminal.step, consolePoll, hdrain, ok_bind]
    · have hon' : t'.off = false := by
        revert hon
        split
        · exact id
        · exact id
      obtain ⟨hbounded, hcontents⟩ := hcaught.queue hon'
      have hheard : Heard t'.decoder d' := by
        refine ⟨?_, ?_, ?_⟩
        · rw [hcaught.decoder]
          exact hlistens.heard.whole
        · rw [hcaught.decoder, hcaught.held]
          exact hlistens.heard.bits
        · rw [hcaught.decoder, hcaught.caps]
          exact hlistens.heard.caps
      rw [if_neg (by rw [hon']; exact Bool.false_ne_true)]
      refine ⟨hheard, hbounded, ?_, ?_⟩
      · show t'.queue.contents.filterMap eventPurpose = d'.waiting
        rw [hcontents, hcaught.waiting]
        rfl
      · show t'.queue.contents.length ≤ 0
        rw [hcontents, List.length_nil]

/-- **The kernel and the desk go on alike.** -/
theorem Seated.runs : ∀ {hs : List Happening} {t : Terminal} {d : Desk} {moved : Nat}, Seated t d moved → moved ≤ 63 →
    Fair d.held moved hs → ∃ replies t' d' moved', run Terminal.step t hs = .ok (replies, t') ∧
      run Desk.step d hs = .ok (replies, d') ∧ Seated t' d' moved' := by
  intro hs
  induction hs with
  | nil =>
    intro t d moved h _ _
    exact ⟨[], t, d, moved, rfl, rfl, h⟩
  | cons happening hs ih =>
    intro t d moved h hmoved hfair
    cases happening with
    | key a =>
      obtain ⟨ha, hroom, hrest⟩ := hfair
      rw [← Desk.key_held] at hrest
      obtain ⟨replies, t', d', moved', hrun, hdesk, h'⟩ := ih (h.key ha hroom) hroom hrest
      exact ⟨[] :: replies, t', d', moved', run_cons_ok rfl hrun, run_cons_ok rfl hdesk, h'⟩
    | poll p =>
      obtain ⟨effects, t₁, d₁, hstep, hdesk₁, h₁, hheld⟩ := h.poll hmoved p
      rw [Fair, ← hheld] at hfair
      obtain ⟨replies, t', d', moved', hrun, hdesk, h'⟩ := ih h₁ (Nat.zero_le _) hfair
      exact ⟨effects :: replies, t', d', moved', run_cons_ok hstep hrun, run_cons_ok hdesk₁ hdesk, h'⟩

theorem seated_start {width height : Nat} {now : UInt64} {fs : State} (hfs : Inv fs) {c : ConsoleState}
    (hc : consoleInit width height now ⟨fs, [slash]⟩ = .ok c) (q : Queue) :
    Seated (Terminal.start c q) (Desk.start ⟨fs, [slash]⟩) 0 := by
  obtain ⟨c', hc', hline, hsettled, hshell, -⟩ := exists_consoleInit width height now fs
  obtain rfl := Except.ok.inj (hc.symm.trans hc')
  have hfifo := Fifo.start q
  refine ⟨⟨rfl, hshell, hline, hsettled, ?_⟩, fun _ => ⟨⟨rfl, ?_, ?_⟩, hfifo.bounded, ?_, ?_⟩⟩
  · show Ready c.shell
    rw [hshell]
    exact ⟨hfs, [], canonical_nil, rfl⟩
  · intro m
    show (0 : UInt8) &&& m.bit ≠ 0 ↔ m.isHeld fun _ => false
    cases m <;> decide
  · show capsOf 0 = false
    decide
  · show (inputInit q).contents.filterMap eventPurpose = []
    rw [show (inputInit q).contents = [] from hfifo.contents.symm]
    rfl
  · exact (congrArg List.length hfifo.contents).ge

/-- **From the keys to the shell.** After `console_init` on a well-formed filesystem, whatever the ring held before:
for every order of key movements and polls that is fair, nothing faults, every poll does what the desk does (the same
characters are printed and the same calls of the filesystem are made, in the same order), and the shell, the command
line and the history are those of the desk, until a command switches the machine off. -/
theorem keys_reach_shell {width height : Nat} {now : UInt64} {fs : State} (hfs : Inv fs) {c : ConsoleState}
    (hc : consoleInit width height now ⟨fs, [slash]⟩ = .ok c) (q : Queue) (hs : List Happening)
    (hfair : Fair (fun _ => false) 0 hs) : ∃ replies t desk,
      run Terminal.step (Terminal.start c q) hs = .ok (replies, t) ∧
      run Desk.step (Desk.start ⟨fs, [slash]⟩) hs = .ok (replies, desk) ∧
      t.off = desk.off ∧ t.console.shell = desk.shell ∧ Represents t.console desk.editor := by
  obtain ⟨replies, t, desk, moved, hrun, hdesk, h⟩ := (seated_start hfs hc q).runs (Nat.zero_le _) hfair
  exact ⟨replies, t, desk, hrun, hdesk, h.shown.off, h.shown.shell, h.shown.line⟩

/-- A poll at tick 0 -/
def plainPoll : Poll := ⟨0, (press .none 0).env, (press .none 0).junk⟩

/-- The letter A, by its key -/
def letterA : PhysicalKey := ⟨false, 0x1E, by decide⟩

/-- A key is typed and looked at. -/
theorem keys_reach_shell_letter : ∃ c, consoleInit 640 480 0 ⟨(mount (blankDisk 65536)).2, [slash]⟩ = .ok c ∧
    ∃ replies t desk, run Terminal.step (Terminal.start c ⟨fun _ => keyA, 5, 9⟩)
        [.key (.press letterA), .key (.release letterA), .poll plainPoll] = .ok (replies, t) ∧
      run Desk.step (Desk.start ⟨(mount (blankDisk 65536)).2, [slash]⟩)
        [.key (.press letterA), .key (.release letterA), .poll plainPoll] = .ok (replies, desk) ∧
      t.off = desk.off ∧ t.console.shell = desk.shell ∧ Represents t.console desk.editor := by
  obtain ⟨c, hc, -⟩ := exists_consoleInit 640 480 0 (mount (blankDisk 65536)).2
  refine ⟨c, hc, keys_reach_shell (fresh_blankDisk 65536).inv_mount hc _ _ ⟨trivial, by decide, ?_, by decide, trivial⟩⟩
  intro m
  cases m <;> decide

/-! ## Typing a line -/

/-- The `Enter` key -/
def enterKey : PhysicalKey := ⟨false, 0x1C, by decide⟩

/-- One way to type a text: one key after the other, with one of the shift keys where the character needs it -/
inductive Spells (caps : Bool) : List UInt8 → List Action → Prop
  | nil : Spells caps [] []
  | plain {key : PhysicalKey} {ch : UInt8} {line : List UInt8} {actions : List Action}
      (hkey : (capOf key).writes false caps = some ch) (h : Spells caps line actions) :
      Spells caps (ch :: line) (.press key :: .release key :: actions)
  | shifted {shift key : PhysicalKey} {ch : UInt8} {line : List UInt8} {actions : List Action}
      (hshift : Modifier.shift.has shift) (hkey : (capOf key).writes true caps = some ch)
      (h : Spells caps line actions) :
      Spells caps (ch :: line) (.press shift :: .press key :: .release key :: .release shift :: actions)

/-- **Every printable text can be typed.** -/
theorem exists_spells (caps : Bool) {line : List UInt8} (h : ∀ ch ∈ line, 32 ≤ ch ∧ ch ≤ 126) :
    ∃ actions, Spells caps line actions := by
  induction line with
  | nil => exact ⟨[], .nil⟩
  | cons ch line ih =>
    obtain ⟨actions, hactions⟩ := ih fun ch' hch' => h ch' (List.mem_cons_of_mem ch hch')
    obtain ⟨⟨code, shift⟩, hmem, hwrites⟩ := exists_stroke caps (h ch List.mem_cons_self)
    have hcode : code < 0x50 := strokes_code hmem
    have hvalid : code < 0x80 ∧ code ≠ 0x60 ∧ code ≠ 0x61 := by
      have hall : ∀ b : UInt8, b < 0x50 → b < 0x80 ∧ b ≠ 0x60 ∧ b ≠ 0x61 := by decide +kernel
      exact hall code hcode
    have hcap : (capOf ⟨false, code, hvalid⟩).writes shift caps = some ch := hwrites
    cases shift with
    | false => exact ⟨_, .plain hcap hactions⟩
    | true => exact ⟨_, .shifted (Or.inl rfl) hcap hactions⟩

/-- The keys of these actions, by what they are for -/
def struck (held : PhysicalKey → Bool) (caps : Bool) : List Action → List Purpose
  | [] => []
  | .press key :: actions =>
    (purposeOf (capOf key) (decide (Modifier.shift.isHeld held)) (decide (Modifier.ctrl.isHeld held)) caps).toList
      ++ struck ((Action.press key).held held) (if capOf key = .capsLock then !caps else caps) actions
  | .release key :: actions => struck ((Action.release key).held held) caps actions
  | .pause :: actions => struck held caps actions

/-- A key that went down and up again -/
theorem held_release_press {held : PhysicalKey → Bool} {key : PhysicalKey} (hup : held key = false) :
    (Action.release key).held ((Action.press key).held held) = held := by
  funext x
  by_cases hx : x = key
  · simp [Action.held, hx, hup]
  · simp [Action.held, hx]

/-- What a key that writes is for -/
theorem purposeOf_writes {cap : Keycap} {shift caps : Bool} {ch : UInt8} (h : cap.writes shift caps = some ch) :
    purposeOf cap shift false caps = some (.insert ch) ∧ cap ≠ .capsLock := by
  cases cap <;> simp [Keycap.writes] at h <;> simp [purposeOf, Keycap.writes, h]

theorem struck_spells {caps : Bool} {line : List UInt8} {actions : List Action} (h : Spells caps line actions) :
    struck (fun _ => false) caps actions = line.map .insert := by
  have hctrl : decide (Modifier.ctrl.isHeld fun _ => false) = false := by decide
  induction h with
  | nil => rfl
  | plain hkey _ ih =>
    obtain ⟨hpurpose, hlock⟩ := purposeOf_writes hkey
    have hshift : decide (Modifier.shift.isHeld fun _ => false) = false := by decide
    rw [struck, struck, hctrl, hshift, hpurpose, if_neg hlock, held_release_press rfl, ih]
    rfl
  | @shifted shift key _ _ _ hshift hkey _ ih =>
    obtain ⟨hpurpose, hlock⟩ := purposeOf_writes hkey
    have hblank := capOf_modifier hshift
    have hne : key ≠ shift := by
      rintro rfl
      rw [hblank] at hkey
      cases hkey
    have hdown : decide (Modifier.shift.isHeld ((Action.press shift).held fun _ => false)) = true :=
      decide_eq_true ((Keyboard.isHeld_press _ _ _).mpr (Or.inl hshift))
    have hctrl' : decide (Modifier.ctrl.isHeld ((Action.press shift).held fun _ => false)) = false := by
      rw [decide_eq_false_iff_not, Keyboard.isHeld_press]
      rintro (hctrl' | hctrl')
      · cases Modifier.has_unique hshift hctrl'
      · exact absurd hctrl' (of_decide_eq_false hctrl)
    have hup : ((Action.press shift).held fun _ => false) key = false := by
      simp [Action.held, hne]
    rw [struck, struck, struck, struck, hblank, if_neg (by decide), hdown, hctrl', hpurpose, if_neg hlock,
      held_release_press hup, held_release_press rfl, ih]
    simp [purposeOf, Keycap.writes]

/-! ### What the desk makes of it -/

/-- The keys of a text, one after the other -/
def Editor.acts (prompt : Nat) (purposes : List Purpose) (ed : Editor) : Editor :=
  purposes.foldl (fun ed purpose => ed.act prompt purpose) ed

/-- The keys in front of the others, if Enter is not among them -/
theorem catchUp_append (p : Poll) {ps : List Purpose} (qs : List Purpose) : ∀ {d : Desk}, d.off = false →
    Purpose.enter ∉ ps → d.catchUp p (ps ++ qs)
      = ({ d with editor := d.editor.acts (consolePromptColumns d.shell.cwd) ps } : Desk).catchUp p qs := by
  induction ps with
  | nil =>
    intro d _ _
    rfl
  | cons purpose ps ih =>
    intro d hon henter
    have hne : ¬ purpose = .enter := fun heq => henter (heq ▸ List.mem_cons_self)
    rw [List.cons_append, Desk.catchUp, if_neg (by rw [hon]; exact Bool.false_ne_true), if_neg hne]
    exact ih (d := { d with editor := d.editor.act (consolePromptColumns d.shell.cwd) purpose }) hon
      fun hmem => henter (List.mem_cons_of_mem purpose hmem)

/-- Enter -/
theorem catchUp_enter (p : Poll) {d : Desk} (hon : d.off = false) : d.catchUp p [.enter] =
    consoleCommandLine p.env (addHistory d.editor.line d.editor.lines) d.shell d.editor.line >>= fun r =>
      .ok (r.1, { d with waiting := [], editor := d.editor.enter, shell := r.2, off := .halt ∈ r.1 }) := by
  rw [Desk.catchUp, if_neg (by rw [hon]; exact Bool.false_ne_true), if_pos rfl]
  simp only [Desk.catchUp, ok_bind, List.append_nil]

/-- What waits at the desk and what is still to come -/
def Desk.ahead (d : Desk) (typing : List Happening) : List Purpose :=
  d.waiting ++ struck d.held d.caps (typing.filterMap Happening.action)

theorem ahead_key (a : Action) (typing : List Happening) (d : Desk) :
    (d.key a).ahead typing = d.ahead (.key a :: typing) := by
  cases a with
  | press key => exact List.append_assoc _ _ _
  | release key => rfl
  | pause => rfl

/-- **Polls do not matter while a line is typed.** -/
theorem desk_types : ∀ {typing : List Happening} {d : Desk}, d.off = false → Purpose.enter ∉ d.ahead typing →
    ∃ replies d', run Desk.step d typing = .ok (replies, d') ∧ replies.flatten = [] ∧ d'.off = false ∧
      d'.shell = d.shell ∧ Purpose.enter ∉ d'.waiting ∧
      d'.editor.acts (consolePromptColumns d.shell.cwd) d'.waiting
        = d.editor.acts (consolePromptColumns d.shell.cwd) (d.ahead typing) := by
  intro typing
  induction typing with
  | nil =>
    intro d hon henter
    have hahead : d.ahead [] = d.waiting := List.append_nil _
    rw [hahead] at henter ⊢
    exact ⟨[], d, rfl, rfl, hon, rfl, henter, rfl⟩
  | cons happening typing ih =>
    intro d hon henter
    cases happening with
    | key a =>
      obtain ⟨heditor, hshell, hoff⟩ := Desk.key_editor a d
      rw [← ahead_key] at henter ⊢
      obtain ⟨replies, d', hrun, hflat, hon', hshell', henter', hacts⟩ := ih (hoff.trans hon) henter
      rw [hshell, heditor] at hacts
      exact ⟨[] :: replies, d', run_cons_ok rfl hrun, hflat, hon', hshell'.trans hshell, henter', hacts⟩
    | poll p =>
      have hwaiting : Purpose.enter ∉ d.waiting := fun hmem => henter (List.mem_append_left _ hmem)
      have hstep := catchUp_append p [] hon hwaiting
      rw [List.append_nil] at hstep
      obtain ⟨replies, d', hrun, hflat, hon', hshell', henter', hacts⟩ :=
        ih (d := { d with
          waiting := []
          editor := d.editor.acts (consolePromptColumns d.shell.cwd) d.waiting }) hon
          fun hmem => henter (List.mem_append_right _ hmem)
      refine ⟨[] :: replies, d', run_cons_ok hstep hrun, hflat, hon', hshell', henter', ?_⟩
      refine hacts.trans ?_
      show _ = Editor.acts _ (d.waiting ++ struck d.held d.caps (typing.filterMap Happening.action)) d.editor
      rw [Editor.acts, Editor.acts, Editor.acts, List.foldl_append]
      rfl

/-- A text that fits is written in front of the cursor. -/
theorem acts_insert (prompt : Nat) : ∀ {line : List UInt8} {ed : Editor},
    ed.line.length + line.length ≤ commandMax →
      ed.acts prompt (line.map .insert) = { ed with before := ed.before ++ line } := by
  intro line
  induction line with
  | nil =>
    intro ed _
    rw [List.append_nil]
    rfl
  | cons ch line ih =>
    intro ed hroom
    rw [List.length_cons] at hroom
    have hinsert : ed.insert ch = { ed with before := ed.before ++ [ch] } := by
      rw [Editor.insert, if_pos (by omega)]
    show Editor.acts prompt (line.map .insert) (ed.insert ch) = _
    rw [hinsert, ih]
    · rw [List.append_assoc, List.singleton_append]
    · simp only [Editor.line, List.length_append, List.length_singleton] at hroom ⊢
      omega

/-- Nothing is going on at the desk: no key is down, nothing waits, the line is empty. -/
structure Desk.Idle (d : Desk) : Prop where
  up : d.held = fun _ => false
  waiting : d.waiting = []
  line : d.editor.before = [] ∧ d.editor.after = []
  on : d.off = false

/-- Typing a line and entering it, at the desk -/
theorem desk_runs_line {d : Desk} (h : d.Idle) {line : List UInt8} (hlength : line.length ≤ commandMax)
    {typing : List Happening} (hspells : Spells d.caps line (typing.filterMap Happening.action)) (p : Poll)
    {rs : List (List Effect)} {d' : Desk}
    (hrun : run Desk.step d (typing ++ [.key (.press enterKey), .poll p]) = .ok (rs, d')) :
    consoleCommandLine p.env (addHistory line d.editor.lines) d.shell line = .ok (rs.flatten, d'.shell) := by
  have hahead : d.ahead typing = line.map .insert := by
    rw [Desk.ahead, h.waiting, h.up, struck_spells hspells, List.nil_append]
  have henter : Purpose.enter ∉ d.ahead typing := by
    rw [hahead]
    simp
  obtain ⟨replies, d₁, hrun₁, hflat, hon, hshell, henter₁, hacts⟩ := desk_types h.on henter
  rw [hahead, acts_insert _ (by simpa [Editor.line, h.line.1, h.line.2] using hlength), h.line.1,
    List.nil_append] at hacts
  -- Enter waits behind the rest of the line, and the last poll runs what is then in front of it
  have hon₂ : (d₁.key (.press enterKey)).off = false := hon
  have hpoll := (catchUp_append p [.enter] hon₂ henter₁).trans (catchUp_enter p hon₂)
  have hline : (d₁.editor.acts (consolePromptColumns d₁.shell.cwd) d₁.waiting).line = line ∧
      (d₁.editor.acts (consolePromptColumns d₁.shell.cwd) d₁.waiting).lines = d.editor.lines := by
    rw [hshell, hacts, Editor.line, h.line.2, List.append_nil]
    exact ⟨rfl, rfl⟩
  rw [run_append hrun₁] at hrun
  obtain ⟨⟨rs₂, d₂⟩, hrest, heq⟩ := bind_eq_ok_iff.mp hrun
  cases heq
  have hkeys : run Desk.step d₁ [.key (.press enterKey), .poll p]
      = (d₁.key (.press enterKey)).step (.poll p) >>= fun r => .ok ([[], r.1], r.2) := by
    simp only [run, Desk.step, ok_bind]
    cases Desk.catchUp p (d₁.key (.press enterKey)).waiting (d₁.key (.press enterKey)) with
    | error e => rfl
    | ok r => rfl
  rw [hkeys] at hrest
  obtain ⟨⟨effects, d₃⟩, hstep, heq⟩ := bind_eq_ok_iff.mp hrest
  cases heq
  obtain ⟨⟨effects', shell⟩, hexec, heq⟩ := bind_eq_ok_iff.mp (hpoll.symm.trans hstep)
  cases heq
  have hexec' : consoleCommandLine p.env (addHistory line d.editor.lines) d.shell line = .ok (effects', shell) := by
    rw [← hline.1, ← hline.2, ← hshell]
    exact hexec
  rw [hexec', List.flatten_append, hflat]
  simp

/-- **A line is typed.** In every state that such a run can come to with no key down and an empty line in front of the
user: every printable line can be typed, whether caps lock is on or not; and every way of typing it one key after the
other (in which the polls may come at any time), with Enter and a poll behind it, makes the shell execute exactly this
line, once, with the history as it is with this line in it. -/
theorem typed_line_runs {width height : Nat} {now : UInt64} {fs : State} (hfs : Inv fs) {c : ConsoleState}
    (hc : consoleInit width height now ⟨fs, [slash]⟩ = .ok c) (q : Queue) {hs : List Happening}
    {replies : List (List Effect)} {desk : Desk}
    (hbefore : run Desk.step (Desk.start ⟨fs, [slash]⟩) hs = .ok (replies, desk)) (hidle : desk.Idle)
    {line : List UInt8} (hlength : line.length ≤ commandMax) (hprintable : ∀ ch ∈ line, 32 ≤ ch ∧ ch ≤ 126) :
    (∃ actions, Spells desk.caps line actions) ∧
    ∀ typing p, Spells desk.caps line (typing.filterMap Happening.action) →
      Fair (fun _ => false) 0 (hs ++ (typing ++ [.key (.press enterKey), .poll p])) → ∃ replies' t,
        run Terminal.step (Terminal.start c q) (hs ++ (typing ++ [.key (.press enterKey), .poll p]))
          = .ok (replies ++ replies', t) ∧
        consoleCommandLine p.env (addHistory line desk.editor.lines) desk.shell line
          = .ok (replies'.flatten, t.console.shell) := by
  refine ⟨exists_spells _ hprintable, fun typing p hspells hfair => ?_⟩
  obtain ⟨all, t, desk', moved, hrun, hdesk, h⟩ := (seated_start hfs hc q).runs (Nat.zero_le _) hfair
  rw [run_append hbefore] at hdesk
  obtain ⟨⟨replies', desk''⟩, hrest, heq⟩ := bind_eq_ok_iff.mp hdesk
  cases heq
  refine ⟨replies', t, hrun, ?_⟩
  rw [h.shown.shell]
  exact desk_runs_line hidle hlength hspells p hrest

theorem typed_line_runs_help : ∃ c, consoleInit 640 480 0 ⟨(mount (blankDisk 65536)).2, [slash]⟩ = .ok c ∧
    (∃ actions, Spells false (text "help") actions) ∧
    ∀ typing p, Spells false (text "help") (typing.filterMap Happening.action) →
      Fair (fun _ => false) 0 ([] ++ (typing ++ [.key (.press enterKey), .poll p])) → ∃ replies' t,
        run Terminal.step (Terminal.start c ⟨fun _ => keyA, 5, 9⟩)
          ([] ++ (typing ++ [.key (.press enterKey), .poll p])) = .ok ([] ++ replies', t) ∧
        consoleCommandLine p.env (addHistory (text "help") []) ⟨(mount (blankDisk 65536)).2, [slash]⟩ (text "help")
          = .ok (replies'.flatten, t.console.shell) := by
  obtain ⟨c, hc, -⟩ := exists_consoleInit 640 480 0 (mount (blankDisk 65536)).2
  have hlength : (text "help").length ≤ commandMax := by decide
  have hprintable : ∀ ch ∈ text "help", 32 ≤ ch ∧ ch ≤ 126 := by decide +kernel
  have hidle : (Desk.start ⟨(mount (blankDisk 65536)).2, [slash]⟩).Idle := ⟨rfl, rfl, ⟨rfl, rfl⟩, rfl⟩
  have hbefore : run Desk.step (Desk.start ⟨(mount (blankDisk 65536)).2, [slash]⟩) []
      = .ok ([], Desk.start ⟨(mount (blankDisk 65536)).2, [slash]⟩) := rfl
  exact ⟨c, hc, typed_line_runs (fresh_blankDisk 65536).inv_mount hc _ hbefore hidle hlength hprintable⟩

end MinOS.Console
