/-
# MinOS.Keyboard.Decode — `keyboard_irq` of `kernel/keyboard.c`.

The decoder is a state machine over bytes: one flag for a pending `E0` and the modifier bits. Each interrupt
takes one byte and hands at most one event to `input_push`. Characters are bytes; the line on the serial port
and the end-of-interrupt command are left out.

How many events a stream queues does not depend on the modifiers. The six bytes of the Pause key queue two: the
comment calls the sequence ignored, but only its `E1` bytes are, and `1D` and `9D` are the codes of the left
control key.
-/
import Mathlib.Data.List.Basic
import MinOS.Input

namespace MinOS.Keyboard

open MinOS.Input (Key Event)

/-! ## Tables -/

/-- `normal[]` of `key_for_scancode` -/
def normal : List (UInt8 × Key) :=
  [(0x01, .escape), (0x02, .digit1), (0x03, .digit2), (0x04, .digit3), (0x05, .digit4), (0x06, .digit5),
    (0x07, .digit6), (0x08, .digit7), (0x09, .digit8), (0x0A, .digit9), (0x0B, .digit0),
    (0x0E, .backspace), (0x0C, .minus), (0x0D, .equals), (0x0F, .tab), (0x1C, .enter), (0x39, .space),
    (0x1A, .leftBracket), (0x1B, .rightBracket), (0x27, .semicolon), (0x28, .apostrophe), (0x29, .grave),
    (0x2B, .backslash), (0x33, .comma), (0x34, .period), (0x35, .slash), (0x37, .kpStar),
    (0x4A, .kpMinus), (0x4E, .kpPlus), (0x3A, .capsLock), (0x1E, .a), (0x30, .b), (0x2E, .c), (0x20, .d),
    (0x12, .e), (0x21, .f), (0x22, .g), (0x23, .h), (0x17, .i), (0x24, .j), (0x25, .k), (0x26, .l),
    (0x32, .m), (0x31, .n), (0x18, .o), (0x19, .p), (0x10, .q), (0x13, .r), (0x1F, .s), (0x14, .t),
    (0x16, .u), (0x2F, .v), (0x11, .w), (0x2D, .x), (0x15, .y), (0x2C, .z)]

/-- `key_for_scancode` -/
def keyForScancode (code : UInt8) : Key :=
  if code ≥ 0x4F then .none else (normal.lookup code).getD .none

/-- `extended_key` -/
def extendedKey (code : UInt8) : Key :=
  if code = 0x4B then .left
  else if code = 0x4D then .right
  else if code = 0x48 then .up
  else if code = 0x50 then .down
  else if code = 0x1D then .rightCtrl
  else if code = 0x38 then .rightAlt
  else .none

/-- `key_character` -/
def keyCharacter : Key → UInt8
  | .a => 97 | .b => 98 | .c => 99 | .d => 100 | .e => 101 | .f => 102 | .g => 103 | .h => 104
  | .i => 105 | .j => 106 | .k => 107 | .l => 108 | .m => 109 | .n => 110 | .o => 111 | .p => 112
  | .q => 113 | .r => 114 | .s => 115 | .t => 116 | .u => 117 | .v => 118 | .w => 119 | .x => 120
  | .y => 121 | .z => 122
  | .digit0 => 48 | .digit1 => 49 | .digit2 => 50 | .digit3 => 51 | .digit4 => 52 | .digit5 => 53
  | .digit6 => 54 | .digit7 => 55 | .digit8 => 56 | .digit9 => 57
  | .space => 32 | .enter => 10 | .tab => 9 | .backspace => 8 | .minus => 45 | .equals => 61
  | .leftBracket => 91 | .rightBracket => 93 | .backslash => 92 | .semicolon => 59 | .apostrophe => 39
  | .grave => 96 | .comma => 44 | .period => 46 | .slash => 47 | .kpStar => 42 | .kpMinus => 45
  | .kpPlus => 43
  | _ => 0

/-- The codes of `scancode_character` from 0x02 to 0x0D and the others, each with its character and the one
with shift -/
def scancodeCharacters : List (UInt8 × UInt8 × UInt8) :=
  [(0x02, 49, 33), (0x03, 50, 64), (0x04, 51, 35), (0x05, 52, 36), (0x06, 53, 37), (0x07, 54, 94),
    (0x08, 55, 38), (0x09, 56, 42), (0x0A, 57, 40), (0x0B, 48, 41), (0x0C, 45, 95), (0x0D, 61, 43),
    (0x1A, 91, 123), (0x1B, 93, 125), (0x27, 59, 58), (0x28, 39, 34), (0x29, 96, 126), (0x2B, 92, 124),
    (0x33, 44, 60), (0x34, 46, 62), (0x35, 47, 63)]

/-- `scancode_character` -/
def scancodeCharacter (code : UInt8) (shift : Bool) : UInt8 :=
  match scancodeCharacters.lookup code with
  | none => 0
  | some (plain, shifted) => if shift then shifted else plain

/-! ## The decoder -/

/-- `INPUT_MOD_SHIFT` -/
def modShift : UInt8 := 1
/-- `INPUT_MOD_CTRL` -/
def modCtrl : UInt8 := 2
/-- `INPUT_MOD_ALT` -/
def modAlt : UInt8 := 4
/-- `INPUT_MOD_CAPS` -/
def modCaps : UInt8 := 8

/-- The statics of `keyboard.c` -/
structure Decoder where
  modifiers : UInt8
  extended : UInt8
  deriving DecidableEq, Repr

/-- What `keyboard_init` sets them to -/
def Decoder.start : Decoder := ⟨0, 0⟩

/-- `modifiers = released ? (modifiers & ~bit) : (modifiers | bit)` -/
def setModifier (bit released modifiers : UInt8) : UInt8 :=
  if released ≠ 0 then modifiers &&& ~~~bit else modifiers ||| bit

/-- `push_key_event` -/
def pushKeyEvent (key : Key) (released modifiers : UInt8) : Event :=
  ⟨key, if released ≠ 0 then 0 else 1, modifiers, 0⟩

/-- The branches for a modifier key: its bit, and then the event, which carries the new bits -/
def modifierKey (bit : UInt8) (key : Key) (released : UInt8) (k : Decoder) : List Event × Decoder :=
  let modifiers := setModifier bit released k.modifiers
  ([pushKeyEvent key released modifiers], ⟨modifiers, 0⟩)

/-- `event.character`, given the modifiers after a toggle of caps lock -/
def eventCharacter (key : Key) (code released extended modifiers : UInt8) : UInt8 :=
  let shift := modifiers &&& modShift != 0
  let caps := modifiers &&& modCaps != 0
  let character := if released ≠ 0 then 0 else keyCharacter key
  let symbol := scancodeCharacter code shift
  let character := if released = 0 ∧ extended = 0 ∧ symbol ≠ 0 then symbol else character
  if shift ≠ caps ∧ character ≥ 97 ∧ character ≤ 122 then character - 97 + 65 else character

/-- The last branch: any other key -/
def otherKey (code released : UInt8) (k : Decoder) : List Event × Decoder :=
  let key := if k.extended ≠ 0 then extendedKey code else keyForScancode code
  let modifiers := if key = .capsLock ∧ released = 0 then k.modifiers ^^^ modCaps else k.modifiers
  let event : Event :=
    { key := key
      pressed := if released ≠ 0 then 0 else 1
      modifiers := k.modifiers
      character := eventCharacter key code released k.extended modifiers }
  (if key ≠ .none then [event] else [], ⟨modifiers, 0⟩)

/-- `keyboard_irq` from `code = inb(KBD_DATA)` on: the events handed to `input_push`, and the statics -/
def decode (data : UInt8) (k : Decoder) : List Event × Decoder :=
  if data = 0xE0 then ([], { k with extended := 1 })
  else if data = 0xE1 then ([], { k with extended := 0 })
  else
    let released := data &&& 0x80
    let code := data &&& 0x7F
    if k.extended = 0 ∧ (code = 0x2A ∨ code = 0x36) then
      modifierKey modShift (if code = 0x2A then .leftShift else .rightShift) released k
    else if code = 0x1D then
      modifierKey modCtrl (if k.extended ≠ 0 then .rightCtrl else .leftCtrl) released k
    else if code = 0x38 then
      modifierKey modAlt (if k.extended ≠ 0 then .rightAlt else .leftAlt) released k
    else otherKey code released k

/-- `keyboard_irq`: without `KBD_STATUS_OBF` nothing is read -/
def keyboardIrq (status data : UInt8) (k : Decoder) : List Event × Decoder :=
  if status &&& 1 = 0 then ([], k) else decode data k

/-- One interrupt for each byte, the output buffer full each time -/
def feed : List UInt8 → Decoder → List Event × Decoder
  | [], k => ([], k)
  | data :: stream, k =>
    let first := keyboardIrq 1 data k
    let rest := feed stream first.2
    (first.1 ++ rest.1, rest.2)

theorem feed_append (u v : List UInt8) (k : Decoder) :
    feed (u ++ v) k = ((feed u k).1 ++ (feed v (feed u k).2).1, (feed v (feed u k).2).2) := by
  induction u generalizing k with
  | nil => rfl
  | cons data u ih =>
    simp only [List.cons_append, feed, ih]
    rw [List.append_assoc]

/-! ## The number of events -/

variable {k k' : Decoder}

/-- What is queued for a byte, and whether a prefix is pending after it, depends on the modifiers only in the
events' contents. -/
theorem decode_congr (data : UInt8) (h : k.extended = k'.extended) :
    (decode data k).1.length = (decode data k').1.length ∧
      (decode data k).2.extended = (decode data k').2.extended := by
  simp only [decode, modifierKey, h]
  split
  · exact ⟨rfl, rfl⟩
  · split
    · exact ⟨rfl, rfl⟩
    · split
      · exact ⟨rfl, rfl⟩
      · split
        · exact ⟨rfl, rfl⟩
        · split
          · exact ⟨rfl, rfl⟩
          · refine ⟨?_, rfl⟩
            simp only [otherKey, apply_ite List.length, List.length_cons, List.length_nil, h]

theorem feed_length_congr (stream : List UInt8) (h : k.extended = k'.extended) :
    (feed stream k).1.length = (feed stream k').1.length := by
  induction stream generalizing k k' with
  | nil => rfl
  | cons data stream ih =>
    obtain ⟨hlen, hext⟩ := decode_congr data h
    have hrest := ih hext
    simp only [feed, List.length_append]
    exact congrArg₂ _ hlen hrest

/-! ## The Pause key -/

/-- The bytes of the Pause key, which has no release code -/
def pauseBytes : List UInt8 := [0xE1, 0x1D, 0x45, 0xE1, 0x9D, 0xC5]

/-- The left control key is pressed and released. -/
theorem feed_pause (h : k.extended = 0) :
    feed pauseBytes k =
      ([pushKeyEvent .leftCtrl 0 (k.modifiers ||| modCtrl),
        pushKeyEvent .leftCtrl 0x80 ((k.modifiers ||| modCtrl) &&& ~~~modCtrl)],
      ⟨(k.modifiers ||| modCtrl) &&& ~~~modCtrl, 0⟩) := by
  obtain ⟨modifiers, extended⟩ := k
  obtain rfl : extended = 0 := h
  rfl

/-- What ignoring the Pause key between `u` and `v` would mean -/
structure Ignored (u v : List UInt8) (k : Decoder) : Prop where
  events : (feed (u ++ pauseBytes ++ v) k).1 = (feed (u ++ v) k).1
  modifiers : (feed (u ++ pauseBytes ++ v) k).2.modifiers = (feed (u ++ v) k).2.modifiers
  extended : (feed (u ++ pauseBytes ++ v) k).2.extended = (feed (u ++ v) k).2.extended

theorem feed_pause_length (u v : List UInt8) (h : (feed u k).2.extended = 0) :
    (feed (u ++ pauseBytes ++ v) k).1.length = (feed (u ++ v) k).1.length + 2 := by
  have hpause := feed_pause h
  have hrest : (feed v (feed pauseBytes (feed u k).2).2).1.length = (feed v (feed u k).2).1.length := by
    apply feed_length_congr
    rw [hpause, h]
  simp only [feed_append, List.length_append, hrest]
  rw [hpause]
  simp only [List.length_cons, List.length_nil]
  omega

/-- **The Pause key is never ignored.** From any state of the decoder and between any two streams, with no
prefix pending at the split, its bytes queue two events more. -/
theorem pause_never_ignored (k : Decoder) (u v : List UInt8) (hboundary : (feed u k).2.extended = 0) :
    ¬ Ignored u v k := by
  intro h
  have hlen := feed_pause_length u v hboundary
  rw [h.events] at hlen
  omega

theorem pause_never_ignored_alone : ¬ Ignored [] [] Decoder.start := pause_never_ignored _ [] [] rfl

/-- The Pause key by itself: a press and a release of the left control key are queued, and not nothing. -/
theorem pause_queues_ctrl :
    (feed pauseBytes Decoder.start).1 = [⟨.leftCtrl, 1, modCtrl, 0⟩, ⟨.leftCtrl, 0, 0, 0⟩] ∧
      ¬ Ignored [] [] Decoder.start := by
  refine ⟨rfl, fun h => ?_⟩
  exact absurd h.events (by decide)

end MinOS.Keyboard
