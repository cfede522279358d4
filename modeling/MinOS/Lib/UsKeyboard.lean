/-
# UsKeyboard — what is printed on the keys of a US keyboard.

The keys of scan code set 1 have their codes row by row, so that a layout is the text of its rows. A key writes
its first character, or the second one with shift; caps lock turns that around on the letters. Every printable
character of ASCII is on some key, whether caps lock is on or off.
-/
import Mathlib.Data.List.Basic

namespace UsKeyboard

/-- The characters of an ASCII text -/
def ascii (s : String) : List UInt8 := s.toList.map fun c => UInt8.ofNat c.toNat

/-- A row: the code of its first key, its characters and those with shift -/
structure Row where
  first : UInt8
  keys : List (UInt8 × UInt8)

/-- The four rows of characters, the space bar, and the keypad -/
def rows : List Row :=
  [⟨0x02, (ascii "1234567890-=").zip (ascii "!@#$%^&*()_+")⟩,
    ⟨0x10, (ascii "qwertyuiop[]").zip (ascii "QWERTYUIOP\x7b\x7d")⟩,
    ⟨0x1E, (ascii "asdfghjkl;'`").zip (ascii "ASDFGHJKL:\"~")⟩,
    ⟨0x2B, (ascii "\\zxcvbnm,./").zip (ascii "|ZXCVBNM<>?")⟩,
    ⟨0x37, [(42, 42)]⟩, ⟨0x39, [(32, 32)]⟩, ⟨0x4A, [(45, 45)]⟩, ⟨0x4E, [(43, 43)]⟩]

/-- The two characters of a row's key -/
def Row.printed (row : Row) (code : UInt8) : Option (UInt8 × UInt8) :=
  if row.first ≤ code then row.keys[(code - row.first).toNat]? else none

/-- The two characters of a key -/
def printed (code : UInt8) : Option (UInt8 × UInt8) := rows.findSome? (Row.printed · code)

/-- What a key is -/
inductive Keycap
  | letter (lower upper : UInt8)
  | symbols (plain shifted : UInt8)
  | capsLock | enter | backspace | tab | left | right | up | down
  /-- a modifier, or a key that is for nothing -/
  | blank
  deriving DecidableEq, Repr

/-- The key with this code, which may come behind `E0` -/
def keycap (prefixed : Bool) (code : UInt8) : Keycap :=
  if prefixed then
    if code = 0x4B then .left
    else if code = 0x4D then .right
    else if code = 0x48 then .up
    else if code = 0x50 then .down
    else .blank
  else
    match printed code with
    | some (plain, shifted) => if 97 ≤ plain ∧ plain ≤ 122 then .letter plain shifted else .symbols plain shifted
    | none =>
      if code = 0x0E then .backspace
      else if code = 0x0F then .tab
      else if code = 0x1C then .enter
      else if code = 0x3A then .capsLock
      else .blank

/-- The character a key writes -/
def Keycap.writes (shift caps : Bool) : Keycap → Option UInt8
  | .letter lower upper => some (if shift != caps then upper else lower)
  | .symbols plain shifted => some (if shift then shifted else plain)
  | _ => none

/-- The keys that write, with and without shift -/
def strokes : List (UInt8 × Bool) :=
  rows.flatMap fun row => (List.range row.keys.length).flatMap fun i =>
    [(row.first + UInt8.ofNat i, false), (row.first + UInt8.ofNat i, true)]

/-- Every code of the table is below 0x50. -/
theorem strokes_code {stroke : UInt8 × Bool} (h : stroke ∈ strokes) : stroke.1 < 0x50 := by
  have hall : ∀ s ∈ strokes, s.1 < 0x50 := by decide +kernel
  exact hall stroke h

/-- **Every printable character can be written.** -/
theorem exists_stroke (caps : Bool) {ch : UInt8} (h : 32 ≤ ch ∧ ch ≤ 126) :
    ∃ stroke ∈ strokes, (keycap false stroke.1).writes stroke.2 caps = some ch := by
  have hall : ∀ n < 95, ∀ caps, ∃ stroke ∈ strokes,
      (keycap false stroke.1).writes stroke.2 caps = some (UInt8.ofNat (32 + n)) := by decide +kernel
  have hle : 32 ≤ ch.toNat := h.1
  have hge : ch.toNat ≤ 126 := h.2
  obtain ⟨stroke, hmem, hwrites⟩ := hall (ch.toNat - 32) (by omega) caps
  rw [Nat.add_sub_cancel' hle, UInt8.ofNat_toNat] at hwrites
  exact ⟨stroke, hmem, hwrites⟩

end UsKeyboard
