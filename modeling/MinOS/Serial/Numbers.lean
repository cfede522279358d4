/-
# MinOS.Serial.Numbers — the number printers of `kernel/serial.c` and `kernel/console.c`.

Three loops that put the digits of a number into an array, lowest first, and print the array backwards: decimal on the
serial line (32 characters), hexadecimal on the serial line (16, as many as the longest number has) and decimal on the
screen (21). An index outside of its array is `none`.

Output is the list of bytes that go out at `COM1_PORT`. The line is initialised and drains: the waiting for
`is_transmit_empty` is left out.
-/
import MinOS.Lib.Numeral
import MinOS.Console.Shell

namespace MinOS.Serial

open Numeral

/-! ## `serial.c` -/

/-- `serial_putc` -/
def serialPutc (c : UInt8) : List UInt8 := if c = 10 then [13, 10] else [c]

/-- `serial_puts` -/
def serialPuts (str : List UInt8) : List UInt8 := str.flatMap serialPutc

/-- `'0' + value % 10` as a `char` -/
def decimalDigit (value : UInt64) : UInt8 := (48 + value % 10).toUInt8

/-- `hex_chars` -/
def hexChars : List UInt8 := [48, 49, 50, 51, 52, 53, 54, 55, 56, 57, 65, 66, 67, 68, 69, 70]

/-- `hex_chars[value & 0xF]` -/
def hexDigit (value : UInt64) : UInt8 := hexChars.getD (value &&& 0xF).toNat 0

/-- The two loops of a printer: the characters of a number that is not 0, through an array of `size` characters -/
def printDigits (digit : UInt64 → UInt8) (next : UInt64 → UInt64) (size : Nat) (value : UInt64) :
    Option (List UInt8) := do
  let buf ← store UInt64.toNat digit next size value []
  emit buf buf.length

/-- `serial_put_dec` -/
def serialPutDec (val : UInt64) : Option (List UInt8) :=
  if val = 0 then some (serialPutc 48)
  else (printDigits decimalDigit (· / 10) 32 val).map serialPuts

/-- `serial_put_hex` -/
def serialPutHex (val : UInt64) : Option (List UInt8) :=
  if val = 0 then some (serialPuts [48, 120] ++ serialPutc 48)
  else (printDigits hexDigit (· >>> 4) 16 val).map fun digits => serialPuts [48, 120] ++ serialPuts digits

/-! ## `console.c` -/

/-- `console_put_u64`, with its array -/
def consolePutU64Buffered (value : UInt64) : Option (List Console.Effect) :=
  if value = 0 then some [.putc 48]
  else (printDigits decimalDigit (· / 10) 21 value).map fun digits => digits.map .putc

/-! ## Digits -/

/-- The decimal digits -/
def decimalChars : List UInt8 := [48, 49, 50, 51, 52, 53, 54, 55, 56, 57]

/-- A digit as a character, decimal -/
def decimalGlyph (d : Nat) : UInt8 := UInt8.ofNat (48 + d)

/-- A digit as a character, hexadecimal -/
def hexGlyph (d : Nat) : UInt8 := hexChars.getD d 0

theorem isTable_decimal : IsTable decimalChars decimalGlyph := by
  refine ⟨by decide, by decide, ?_⟩
  decide

theorem isTable_hex : IsTable hexChars hexGlyph := by
  refine ⟨by decide, by decide, ?_⟩
  intro d hd
  exact List.getD_eq_getElem _ _ hd

theorem decimalDigit_eq (value : UInt64) : decimalDigit value = decimalGlyph (value.toNat % decimalChars.length) := by
  have hlt := Nat.mod_lt value.toNat (show 0 < 10 by decide)
  have hten : (10 : UInt64).toNat = 10 := rfl
  rw [decimalDigit, decimalGlyph, show decimalChars.length = 10 from rfl, ← UInt8.toNat_inj, UInt64.toNat_toUInt8,
    UInt64.toNat_add, UInt64.toNat_mod, hten, UInt8.toNat_ofNat']
  have h48 : (48 : UInt64).toNat = 48 := rfl
  omega

theorem hexDigit_eq (value : UInt64) : hexDigit value = hexGlyph (value.toNat % hexChars.length) := by
  rw [hexDigit, hexGlyph, UInt64.toNat_and, show (0xF : UInt64).toNat = 2 ^ 4 - 1 from rfl,
    Nat.and_two_pow_sub_one_eq_mod]
  rfl

/-- **A printer's two loops**, on an array that holds the longest number -/
theorem printDigits_eq {digit : UInt64 → UInt8} {next : UInt64 → UInt64} {glyphs : List UInt8} {glyph : Nat → UInt8}
    (h : IsTable glyphs glyph) (hdigit : ∀ v, digit v = glyph (v.toNat % glyphs.length))
    (hnext : ∀ v, (next v).toNat = v.toNat / glyphs.length) {size : Nat} (hsize : 2 ^ 64 ≤ glyphs.length ^ size)
    {value : UInt64} (hvalue : value ≠ 0) :
    printDigits digit next size value = some (numeral glyphs glyph value.toNat) := by
  have hne : value.toNat ≠ 0 := fun hzero => hvalue (UInt64.toNat_inj.mp hzero)
  have hfits : value.toNat < glyphs.length ^ size := Nat.lt_of_lt_of_le value.toNat_lt hsize
  rw [printDigits, store_eq h.base glyph hdigit hnext hfits, List.nil_append, numeral, if_neg hne]
  exact emit_length _

theorem printDigits_decimal {size : Nat} (hsize : 20 ≤ size) {value : UInt64} (hvalue : value ≠ 0) :
    printDigits decimalDigit (· / 10) size value = some (numeral decimalChars decimalGlyph value.toNat) := by
  apply printDigits_eq isTable_decimal decimalDigit_eq _ _ hvalue
  · intro v
    rw [UInt64.toNat_div]
    rfl
  · exact Nat.le_trans (show 2 ^ 64 ≤ 10 ^ 20 by decide) (Nat.pow_le_pow_right (by decide) hsize)

theorem printDigits_hex {value : UInt64} (hvalue : value ≠ 0) :
    printDigits hexDigit (· >>> 4) 16 value = some (numeral hexChars hexGlyph value.toNat) := by
  apply printDigits_eq isTable_hex hexDigit_eq _ _ hvalue
  · intro v
    rw [UInt64.toNat_shiftRight, show (4 : UInt64).toNat % 64 = 4 from rfl, Nat.shiftRight_eq_div_pow]
    rfl
  · decide

/-! ## The printers -/

/-- No digit is a line feed. -/
theorem serialPuts_numeral {glyphs : List UInt8} {glyph : Nat → UInt8} (h : IsTable glyphs glyph) (hline : 10 ∉ glyphs)
    (n : Nat) : serialPuts (numeral glyphs glyph n) = numeral glyphs glyph n := by
  have hdigit : ∀ c ∈ numeral glyphs glyph n, serialPutc c = [c] := by
    intro c hc
    have hmem := h.mem_of_mem_numeral hc
    rw [serialPutc, if_neg fun heq : c = 10 => hline (heq ▸ hmem)]
  rw [serialPuts, List.flatMap_congr hdigit, List.flatMap_singleton']

theorem numeral_zero (glyphs : List UInt8) (glyph : Nat → UInt8) : numeral glyphs glyph 0 = [glyph 0] := if_pos rfl

theorem serialPutDec_eq (v : UInt64) : serialPutDec v = some (numeral decimalChars decimalGlyph v.toNat) := by
  rw [serialPutDec]
  split
  · rename_i hzero
    rw [hzero, UInt64.toNat_zero, numeral_zero]
    rfl
  · rename_i hne
    rw [printDigits_decimal (by decide) hne, Option.map_some, serialPuts_numeral isTable_decimal (by decide)]

theorem serialPutHex_eq (v : UInt64) : serialPutHex v = some (48 :: 120 :: numeral hexChars hexGlyph v.toNat) := by
  rw [serialPutHex]
  split
  · rename_i hzero
    rw [hzero, UInt64.toNat_zero, numeral_zero]
    rfl
  · rename_i hne
    rw [printDigits_hex hne, Option.map_some, serialPuts_numeral isTable_hex (by decide)]
    rfl

theorem consolePutU64Buffered_eq (v : UInt64) :
    consolePutU64Buffered v = some ((numeral decimalChars decimalGlyph v.toNat).map .putc) := by
  rw [consolePutU64Buffered]
  split
  · rename_i hzero
    rw [hzero, UInt64.toNat_zero, numeral_zero]
    rfl
  · rename_i hne
    rw [printDigits_decimal (by decide) hne, Option.map_some]

/-- The commands of the console print the same. -/
theorem consolePutU64_eq (v : UInt64) :
    Console.consolePutU64 v = (numeral decimalChars decimalGlyph v.toNat).map .putc := by
  rw [Console.consolePutU64]
  split
  · rename_i hzero
    rw [hzero, UInt64.toNat_zero, numeral_zero]
    rfl
  · rename_i hne
    rw [numeral, if_neg fun hzero : v.toNat = 0 => hne (UInt64.toNat_inj.mp hzero)]
    rfl

/-- **The printers are correct and agree.** For every value the three of them stay inside their arrays; the two decimal
ones print the same characters, which are the canonical decimal numeral, and the hexadecimal one prints `0x` and the
canonical numeral in capitals. -/
theorem printers_print_numerals (v : UInt64) :
    ∃ dec hex, IsNumeral decimalChars dec v.toNat ∧ IsNumeral hexChars hex v.toNat ∧ serialPutDec v = some dec ∧
      consolePutU64Buffered v = some (dec.map .putc) ∧ Console.consolePutU64 v = dec.map .putc ∧
      serialPutHex v = some (48 :: 120 :: hex) :=
  ⟨_, _, isTable_decimal.isNumeral _, isTable_hex.isNumeral _, serialPutDec_eq v, consolePutU64Buffered_eq v,
    consolePutU64_eq v, serialPutHex_eq v⟩

example : serialPutHex 0xFFFFFFFFFFFFFFFF = some (48 :: 120 :: List.replicate 16 70) := by decide

end MinOS.Serial
