/-
# MinOS.Lib.Numeral — printing a number through a digit buffer.

The usual printer divides by the base until nothing is left and stores the remainders, lowest first, in a fixed array;
then it walks back through the array and prints it. `store` and `emit` are the two loops. An index outside of the
array, or of what has been stored, is `none`, so that a printer that returns has used none.

A numeral is read with the table of its digits: `numeral` is the canonical one of a number, `parse` reads it back.
-/
import Mathlib.Data.Nat.Digits.Lemmas
import Mathlib.Data.List.Nodup

namespace Numeral

variable {V α : Type}

/-! ## The loops -/

/-- `while (v) { buf[i++] = digit(v); v = next(v); }` with `room` cells of the array left -/
def store (value : V → Nat) (digit : V → α) (next : V → V) : (room : Nat) → V → List α → Option (List α)
  | 0, v, buf => if value v = 0 then some buf else none
  | room + 1, v, buf => if value v = 0 then some buf else store value digit next room (next v) (buf ++ [digit v])

/-- `for (j = n - 1; j >= 0; j--) putc(buf[j]);` -/
def emit (buf : List α) : (n : Nat) → Option (List α)
  | 0 => some []
  | j + 1 => do
    let c ← buf[j]?
    let rest ← emit buf j
    some (c :: rest)

/-- Walking back prints the buffer in reverse. -/
theorem emit_take (buf : List α) {n : Nat} (hn : n ≤ buf.length) : emit buf n = some (buf.take n).reverse := by
  induction n with
  | zero => rfl
  | succ j ih =>
    have hj : j < buf.length := hn
    rw [emit, List.getElem?_eq_getElem hj, ih (Nat.le_of_lt hj), List.take_succ_eq_append_getElem hj,
      List.reverse_append]
    rfl

theorem emit_length (buf : List α) : emit buf buf.length = some buf.reverse := by
  rw [emit_take buf (Nat.le_refl _), List.take_length]

/-- **The digits of a number that fits.** -/
theorem store_eq {value : V → Nat} {digit : V → α} {next : V → V} {b : Nat} (hb : 1 < b) (glyph : Nat → α)
    (hdigit : ∀ v, digit v = glyph (value v % b)) (hnext : ∀ v, value (next v) = value v / b) {room : Nat} {v : V}
    (hroom : value v < b ^ room) (buf : List α) :
    store value digit next room v buf = some (buf ++ (Nat.digits b (value v)).map glyph) := by
  induction room generalizing v buf with
  | zero =>
    have hzero : value v = 0 := by
      rw [Nat.pow_zero] at hroom
      omega
    rw [store, if_pos hzero, hzero, Nat.digits_zero, List.map_nil, List.append_nil]
  | succ room ih =>
    rw [store]
    by_cases hzero : value v = 0
    · rw [if_pos hzero, hzero, Nat.digits_zero, List.map_nil, List.append_nil]
    · have hless : value (next v) < b ^ room := by
        rw [hnext]
        apply Nat.div_lt_of_lt_mul
        rw [← Nat.pow_succ']
        exact hroom
      rw [if_neg hzero, ih hless, hnext, hdigit, Nat.digits_def' hb (Nat.pos_of_ne_zero hzero), List.map_cons,
        List.append_assoc, List.singleton_append]

/-! ## Numerals -/

section Tables

/-- The digits of a number, highest first; 0 has one digit too -/
def numeral (glyphs : List α) (glyph : Nat → α) (n : Nat) : List α :=
  if n = 0 then [glyph 0] else ((Nat.digits glyphs.length n).map glyph).reverse

/-- Read a numeral; none if it has a sign that is no digit -/
def parse [DecidableEq α] (glyphs : List α) (text : List α) : Option Nat :=
  text.foldlM (fun n c => if c ∈ glyphs then some (n * glyphs.length + glyphs.idxOf c) else none) 0

/-- The canonical numeral of a number: it reads as the number, and it has no leading zeros. -/
structure IsNumeral [DecidableEq α] (glyphs text : List α) (n : Nat) : Prop where
  reads : parse glyphs text = some n
  nonempty : text ≠ []
  leading : 1 < text.length → text.head? ≠ glyphs.head?

/-- `glyph` reads the table of digits, which has each digit once. -/
structure IsTable (glyphs : List α) (glyph : Nat → α) : Prop where
  base : 1 < glyphs.length
  nodup : glyphs.Nodup
  glyph : ∀ d (hd : d < glyphs.length), glyph d = glyphs[d]

variable {glyphs : List α} {glyph : Nat → α} (h : IsTable glyphs glyph)
include h

theorem IsTable.mem {d : Nat} (hd : d < glyphs.length) : glyph d ∈ glyphs := by
  rw [h.glyph d hd]
  exact List.getElem_mem hd

/-- A numeral has digits only. -/
theorem IsTable.mem_of_mem_numeral {n : Nat} {c : α} (hc : c ∈ numeral glyphs glyph n) : c ∈ glyphs := by
  have hbase := h.base
  unfold numeral at hc
  split at hc
  · rw [List.mem_singleton.mp hc]
    exact h.mem (by omega)
  · obtain ⟨d, hd, rfl⟩ := List.mem_map.mp (List.mem_reverse.mp hc)
    exact h.mem (Nat.digits_lt_base h.base hd)

variable [DecidableEq α]

theorem IsTable.idxOf {d : Nat} (hd : d < glyphs.length) : glyphs.idxOf (glyph d) = d := by
  rw [h.glyph d hd, h.nodup.idxOf_getElem d hd]

theorem IsTable.parse_digits {ds : List Nat} (hds : ∀ d ∈ ds, d < glyphs.length) :
    parse glyphs (ds.map glyph).reverse = some (Nat.ofDigits glyphs.length ds) := by
  induction ds with
  | nil => rfl
  | cons d ds ih =>
    have hd : d < glyphs.length := hds d List.mem_cons_self
    have hrest := ih fun e he => hds e (List.mem_cons_of_mem _ he)
    unfold parse at hrest
    rw [parse, List.map_cons, List.reverse_cons, List.foldlM_append, hrest]
    simp only [Option.bind_eq_bind, Option.bind_some, List.foldlM_cons, List.foldlM_nil, if_pos (h.mem hd), h.idxOf hd,
      Nat.ofDigits_cons]
    rw [Nat.mul_comm, Nat.add_comm]
    rfl

/-- **Reading the numeral gives the number back.** -/
theorem IsTable.parse_numeral (n : Nat) : parse glyphs (numeral glyphs glyph n) = some n := by
  have hbase := h.base
  rw [numeral]
  split
  · rename_i hzero
    have hone : parse glyphs ([0].map glyph).reverse = some (Nat.ofDigits glyphs.length [0]) :=
      h.parse_digits (by simp; omega)
    rw [hzero]
    simpa using hone
  · rw [h.parse_digits fun d hd => Nat.digits_lt_base h.base hd, Nat.ofDigits_digits]

/-- A numeral of more than 0 does not start with the digit 0. -/
theorem IsTable.head_numeral {n : Nat} (hn : n ≠ 0) : (numeral glyphs glyph n).head? ≠ some (glyph 0) := by
  have hbase := h.base
  have hdigits : Nat.digits glyphs.length n ≠ [] := Nat.digits_ne_nil_iff_ne_zero.mpr hn
  have hlast := Nat.getLast_digit_ne_zero glyphs.length hn
  have hlt := Nat.digits_lt_base h.base (List.getLast_mem hdigits)
  rw [numeral, if_neg hn, List.head?_reverse, List.getLast?_map, List.getLast?_eq_getLast_of_ne_nil hdigits]
  intro heq
  have hsame : glyph ((Nat.digits glyphs.length n).getLast hdigits) = glyph 0 := Option.some.inj heq
  have hidx := congrArg glyphs.idxOf hsame
  rw [h.idxOf hlt, h.idxOf (by omega)] at hidx
  exact hlast hidx

/-- **The numeral is canonical.** -/
theorem IsTable.isNumeral (n : Nat) : IsNumeral glyphs (numeral glyphs glyph n) n := by
  have hbase := h.base
  have hzero : glyphs.head? = some (glyph 0) := by
    rw [h.glyph 0 (by omega), List.head?_eq_getElem?, List.getElem?_eq_getElem]
  by_cases hn : n = 0
  · have hone : numeral glyphs glyph n = [glyph 0] := if_pos hn
    refine ⟨h.parse_numeral n, ?_, ?_⟩ <;> simp [hone]
  · refine ⟨h.parse_numeral n, ?_, fun _ => ?_⟩
    · have hdigits : Nat.digits glyphs.length n ≠ [] := Nat.digits_ne_nil_iff_ne_zero.mpr hn
      rw [numeral, if_neg hn, ne_eq, List.reverse_eq_nil_iff, List.map_eq_nil_iff]
      exact hdigits
    · rw [hzero]
      exact h.head_numeral hn

end Tables

end Numeral
