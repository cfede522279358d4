/-
# MinOS.Serial.Printf — `serial_printf` and the end of its format string.

The scanner moves its pointer in two places: the loop does, and the branch for a directive does so once more before it
looks at the character behind the `%`. If that character is the final NUL, the loop then steps over it and goes on with
whatever lies behind the string.

A format string is a list of characters without NUL. In memory a NUL follows, and behind it anything. `reads` is a
history variable: the offsets from `fmt` that have been read. Arguments are 64-bit slots, as the calling convention
passes them, and a pointer to a string stands for the characters there.

A string is a row of pieces, single characters and directives. It can be cut into pieces without a rest if the run of
`%` it ends with has even length; `serialPrintf_inside_iff` says that the scanner stays inside of exactly these.
-/
import Mathlib.Algebra.Group.Nat.Even
import MinOS.Serial.Numbers

namespace MinOS.Serial

open Numeral

/-! ## `serial_printf` -/

/-- `'%'` -/
def percent : UInt8 := 37

/-- What `va_arg` returns, slot by slot, and the strings at the addresses among them -/
structure Arguments where
  slot : Nat → UInt64
  string : UInt64 → List UInt8

/-- `"(null)"` -/
def nullText : List UInt8 := [40, 110, 117, 108, 108, 41]

/-- The branches of the `switch`; `arg` is the next argument -/
def convert (args : Arguments) (d : UInt8) (arg : UInt64) : Option (List UInt8) :=
  if d = 115 then some (serialPuts (if arg = 0 then nullText else args.string arg))
  else if d = 99 then some (serialPutc arg.toUInt8)
  else if d = 100 ∨ d = 117 then serialPutDec arg
  else if d = 120 ∨ d = 112 then serialPutHex arg
  else if d = percent then some (serialPutc percent)
  else some (serialPutc percent ++ serialPutc d)

/-- How many arguments a branch takes -/
def takes (d : UInt8) : Nat :=
  if d = 115 ∨ d = 99 ∨ d = 100 ∨ d = 117 ∨ d = 120 ∨ d = 112 then 1 else 0

/-- `p - fmt`, the arguments taken, the output and the offsets that have been read -/
structure Scan where
  p : Nat
  taken : Nat
  out : List UInt8
  reads : List Nat

/-- Before the first character -/
def Scan.start : Scan := ⟨0, 0, [], []⟩

section Scanner

variable (fmt : List UInt8) (after : Nat → UInt8) (args : Arguments)

/-- `fmt[i]`: the characters, the NUL, and what lies behind it -/
def charAt (i : Nat) : UInt8 := (fmt ++ [0]).getD i (after i)

/-- The body of the loop and `p++`; none if a conversion leaves its array -/
def printfStep (s : Scan) : Option Scan :=
  if charAt fmt after s.p ≠ percent then
    some { s with p := s.p + 1, out := s.out ++ serialPutc (charAt fmt after s.p), reads := s.reads ++ [s.p] }
  else do
    let d := charAt fmt after (s.p + 1)
    let bytes ← convert args d (args.slot s.taken)
    some ⟨s.p + 2, s.taken + takes d, s.out ++ bytes, s.reads ++ [s.p, s.p + 1]⟩

/-- `serial_printf`, at most `rounds` times round the loop; whether the loop has ended -/
def serialPrintf : (rounds : Nat) → Scan → Option (Bool × Scan)
  | 0, s => some (false, s)
  | rounds + 1, s =>
    if charAt fmt after s.p = 0 then some (true, { s with reads := s.reads ++ [s.p] })
    else do
      let s ← printfStep fmt after args s
      serialPrintf rounds s

end Scanner

/-! ## Pieces -/

/-- A part of a format string -/
inductive Piece
  | literal (c : UInt8)
  | directive (d : UInt8)
  deriving DecidableEq, Repr

/-- The pieces of a string, from the left; a `%` without a character behind it stands for itself -/
def pieces : List UInt8 → List Piece
  | [] => []
  | [c] => [.literal c]
  | c :: d :: rest => if c = percent then .directive d :: pieces rest else .literal c :: pieces (d :: rest)

/-- The text of a directive -/
def conversion (args : Arguments) (d : UInt8) (arg : UInt64) : List UInt8 :=
  if d = 115 then serialPuts (if arg = 0 then nullText else args.string arg)
  else if d = 99 then serialPutc arg.toUInt8
  else if d = 100 ∨ d = 117 then numeral decimalChars decimalGlyph arg.toNat
  else if d = 120 ∨ d = 112 then 48 :: 120 :: numeral hexChars hexGlyph arg.toNat
  else if d = percent then [percent]
  else percent :: serialPutc d

/-- The text of the pieces, one behind the other; `k` arguments have been taken -/
def render (args : Arguments) : List Piece → (k : Nat) → List UInt8
  | [], _ => []
  | .literal c :: ps, k => serialPutc c ++ render args ps k
  | .directive d :: ps, k => conversion args d (args.slot k) ++ render args ps (k + takes d)

/-- The length of the run of `%` a string ends with -/
def trailingPercents (fmt : List UInt8) : Nat := fmt.foldl (fun n c => if c = percent then n + 1 else 0) 0

/-- The string is cut into these pieces without a rest. -/
inductive Closed : List UInt8 → List Piece → Prop
  | nil : Closed [] []
  | literal {c : UInt8} {rest : List UInt8} {ps : List Piece} (hc : c ≠ percent) (h : Closed rest ps) :
    Closed (c :: rest) (.literal c :: ps)
  | directive {rest : List UInt8} {ps : List Piece} (d : UInt8) (h : Closed rest ps) :
    Closed (percent :: d :: rest) (.directive d :: ps)

/-- Behind the last piece there is a `%` left. -/
inductive Open : List UInt8 → Prop
  | lone : Open [percent]
  | literal {c : UInt8} {rest : List UInt8} (hc : c ≠ percent) (h : Open rest) : Open (c :: rest)
  | directive {rest : List UInt8} (d : UInt8) (h : Open rest) : Open (percent :: d :: rest)

/-- Two `%` in a row are a piece, so that parity decides. -/
theorem closed_or_open (rest : List UInt8) {k : Nat} (hk : Even k) :
    (Even (rest.foldl (fun n c => if c = percent then n + 1 else 0) k) ∧ Closed rest (pieces rest)) ∨
      (¬ Even (rest.foldl (fun n c => if c = percent then n + 1 else 0) k) ∧ Open rest) := by
  induction rest using pieces.induct generalizing k with
  | case1 => exact Or.inl ⟨hk, .nil⟩
  | case2 c =>
    by_cases hc : c = percent
    · rw [hc]
      exact Or.inr ⟨by simpa [Nat.even_add_one] using hk, .lone⟩
    · exact Or.inl ⟨by simp [hc], .literal hc .nil⟩
  | case3 d rest ih =>
    rw [List.foldl_cons, List.foldl_cons, if_pos rfl, pieces, if_pos rfl]
    have hnext : Even (if d = percent then k + 1 + 1 else 0) := by
      split
      · simpa [Nat.even_add_one] using hk
      · exact Even.zero
    exact (ih hnext).imp (fun h => ⟨h.1, .directive d h.2⟩) fun h => ⟨h.1, .directive d h.2⟩
  | case4 c d rest hc ih =>
    rw [List.foldl_cons, if_neg hc, pieces, if_neg hc]
    exact (ih Even.zero).imp (fun h => ⟨h.1, .literal hc h.2⟩) fun h => ⟨h.1, .literal hc h.2⟩

/-! ## One round -/

theorem convert_eq (args : Arguments) (d : UInt8) (arg : UInt64) :
    convert args d arg = some (conversion args d arg) := by
  unfold convert conversion
  rw [serialPutDec_eq, serialPutHex_eq]
  split_ifs <;> rfl

section Rounds

variable {fmt front rest : List UInt8} {after : Nat → UInt8} {args : Arguments} {s : Scan}

theorem charAt_front (front : List UInt8) (c : UInt8) (rest : List UInt8) (after : Nat → UInt8) :
    charAt (front ++ c :: rest) after front.length = c := by
  simp [charAt]

theorem charAt_second (front : List UInt8) (c d : UInt8) (rest : List UInt8) (after : Nat → UInt8) :
    charAt (front ++ c :: d :: rest) after (front.length + 1) = d := by
  simp [charAt]

theorem charAt_end (fmt : List UInt8) (after : Nat → UInt8) : charAt fmt after fmt.length = 0 := by
  simp [charAt]

/-- Behind a character that stands for itself -/
def Scan.pastLiteral (s : Scan) (c : UInt8) : Scan :=
  { s with p := s.p + 1, out := s.out ++ serialPutc c, reads := s.reads ++ [s.p] }

/-- Behind a directive -/
def Scan.pastDirective (s : Scan) (args : Arguments) (d : UInt8) : Scan :=
  ⟨s.p + 2, s.taken + takes d, s.out ++ conversion args d (args.slot s.taken), s.reads ++ [s.p, s.p + 1]⟩

theorem printfStep_eq (s : Scan) : printfStep fmt after args s =
    some (if charAt fmt after s.p ≠ percent then s.pastLiteral (charAt fmt after s.p)
      else s.pastDirective args (charAt fmt after (s.p + 1))) := by
  unfold printfStep
  split
  · rfl
  · dsimp only
    rw [convert_eq]
    rfl

/-- The end of the loop -/
theorem serialPrintf_end (hp : charAt fmt after s.p = 0) (n : Nat) :
    serialPrintf fmt after args (n + 1) s = some (true, { s with reads := s.reads ++ [s.p] }) := by
  rw [serialPrintf, if_pos hp]

theorem serialPrintf_literal {c : UInt8} (hp : charAt fmt after s.p = c) (hzero : c ≠ 0) (hc : c ≠ percent) (n : Nat) :
    serialPrintf fmt after args (n + 1) s = serialPrintf fmt after args n (s.pastLiteral c) := by
  rw [serialPrintf, printfStep_eq, hp, if_neg hzero, if_pos hc]
  rfl

theorem serialPrintf_directive {d : UInt8} (hp : charAt fmt after s.p = percent)
    (hd : charAt fmt after (s.p + 1) = d) (n : Nat) :
    serialPrintf fmt after args (n + 1) s = serialPrintf fmt after args n (s.pastDirective args d) := by
  rw [serialPrintf, printfStep_eq, hp, hd, if_neg (by decide), if_neg (by simp)]
  rfl

/-- A round reads the character at `p`, whatever it is. -/
theorem serialPrintf_reads (fmt : List UInt8) (after : Nat → UInt8) (args : Arguments) (s : Scan) :
    ∃ result, serialPrintf fmt after args 1 s = some result ∧ s.p ∈ result.2.reads := by
  rw [serialPrintf]
  split
  · exact ⟨_, rfl, by simp⟩
  · rw [printfStep_eq]
    refine ⟨_, rfl, ?_⟩
    split <;> simp [Scan.pastLiteral, Scan.pastDirective]

end Rounds

/-! ## The loop -/

section Loop

variable {fmt : List UInt8} (after : Nat → UInt8) (args : Arguments)

/-- **A closed string.** After any number of rounds nothing behind the NUL has been read, and after more rounds than
characters the loop has ended and printed the pieces. -/
theorem Closed.serialPrintf {rest : List UInt8} {ps : List Piece} (h : Closed rest ps) :
    ∀ (front : List UInt8) (s : Scan), fmt = front ++ rest → 0 ∉ rest → s.p = front.length →
      (∀ q ∈ s.reads, q ≤ fmt.length) → ∀ rounds, ∃ ended s',
        serialPrintf fmt after args rounds s = some (ended, s') ∧ (∀ q ∈ s'.reads, q ≤ fmt.length) ∧
        (rest.length < rounds → ended = true ∧ s'.out = s.out ++ render args ps s.taken) := by
  induction h with
  | nil =>
    intro front s hfmt _ hp hreads rounds
    have hend : s.p = fmt.length := by rw [hp, hfmt, List.append_nil]
    cases rounds with
    | zero => exact ⟨false, s, rfl, hreads, fun hn => absurd hn (Nat.not_lt_zero _)⟩
    | succ n =>
      rw [serialPrintf_end (by rw [hend, charAt_end])]
      refine ⟨true, _, rfl, List.forall_mem_append.mpr ⟨hreads, ?_⟩, fun _ => ⟨rfl, (List.append_nil _).symm⟩⟩
      simp [hend]
  | @literal c rest ps hc _ ih =>
    intro front s hfmt hzero hp hreads rounds
    cases rounds with
    | zero => exact ⟨false, s, rfl, hreads, fun hn => absurd hn (Nat.not_lt_zero _)⟩
    | succ n =>
      have hlength : fmt.length = front.length + (rest.length + 1) := by simp [hfmt]
      have hchar : charAt fmt after s.p = c := by rw [hp, hfmt, charAt_front]
      rw [List.mem_cons, not_or] at hzero
      rw [serialPrintf_literal hchar (Ne.symm hzero.1) hc]
      have hread : ∀ q ∈ (s.pastLiteral c).reads, q ≤ fmt.length := by
        refine List.forall_mem_append.mpr ⟨hreads, ?_⟩
        simp [hp, hlength]
      obtain ⟨ended, s', hrun, hinside, hdone⟩ :=
        ih (front ++ [c]) _ (by simp [hfmt]) hzero.2 (by simp [Scan.pastLiteral, hp]) hread n
      refine ⟨ended, s', hrun, hinside, fun hn => ?_⟩
      obtain ⟨hended, hout⟩ := hdone (Nat.lt_of_succ_lt_succ hn)
      exact ⟨hended, by rw [hout, Scan.pastLiteral, List.append_assoc]; rfl⟩
  | @directive rest ps d _ ih =>
    intro front s hfmt hzero hp hreads rounds
    cases rounds with
    | zero => exact ⟨false, s, rfl, hreads, fun hn => absurd hn (Nat.not_lt_zero _)⟩
    | succ n =>
      have hlength : fmt.length = front.length + (rest.length + 2) := by simp [hfmt]
      have hchar : charAt fmt after s.p = percent := by rw [hp, hfmt, charAt_front]
      have hnext : charAt fmt after (s.p + 1) = d := by rw [hp, hfmt, charAt_second]
      simp only [List.mem_cons, not_or] at hzero
      rw [serialPrintf_directive hchar hnext]
      have hread : ∀ q ∈ (s.pastDirective args d).reads, q ≤ fmt.length := by
        refine List.forall_mem_append.mpr ⟨hreads, ?_⟩
        simp only [List.mem_cons, List.not_mem_nil, or_false]
        omega
      obtain ⟨ended, s', hrun, hinside, hdone⟩ :=
        ih (front ++ [percent, d]) _ (by simp [hfmt]) hzero.2.2 (by simp [Scan.pastDirective, hp]) hread n
      refine ⟨ended, s', hrun, hinside, fun hn => ?_⟩
      rw [List.length_cons, List.length_cons] at hn
      obtain ⟨hended, hout⟩ := hdone (by omega)
      exact ⟨hended, by rw [hout, Scan.pastDirective, List.append_assoc]; rfl⟩

/-- **An open string.** After some rounds the character behind the NUL has been read. -/
theorem Open.serialPrintf {rest : List UInt8} (h : Open rest) : ∀ (front : List UInt8) (s : Scan),
    fmt = front ++ rest → 0 ∉ rest → s.p = front.length → ∃ rounds ended s',
      serialPrintf fmt after args rounds s = some (ended, s') ∧ fmt.length + 1 ∈ s'.reads := by
  induction h with
  | lone =>
    intro front s hfmt _ hp
    have hlength : fmt.length = s.p + 1 := by simp [hfmt, hp]
    have hchar : charAt fmt after s.p = percent := by rw [hp, hfmt, charAt_front]
    have hnul : charAt fmt after (s.p + 1) = 0 := by rw [← hlength, charAt_end]
    obtain ⟨⟨ended, s'⟩, hrun, hread⟩ := serialPrintf_reads fmt after args (s.pastDirective args 0)
    refine ⟨2, ended, s', (serialPrintf_directive hchar hnul 1).trans hrun, ?_⟩
    rw [hlength]
    exact hread
  | @literal c rest hc _ ih =>
    intro front s hfmt hzero hp
    have hchar : charAt fmt after s.p = c := by rw [hp, hfmt, charAt_front]
    rw [List.mem_cons, not_or] at hzero
    obtain ⟨n, ended, s', hrun, hread⟩ :=
      ih (front ++ [c]) (s.pastLiteral c) (by simp [hfmt]) hzero.2 (by simp [Scan.pastLiteral, hp])
    exact ⟨n + 1, ended, s', (serialPrintf_literal hchar (Ne.symm hzero.1) hc n).trans hrun, hread⟩
  | @directive rest d _ ih =>
    intro front s hfmt hzero hp
    have hchar : charAt fmt after s.p = percent := by rw [hp, hfmt, charAt_front]
    have hnext : charAt fmt after (s.p + 1) = d := by rw [hp, hfmt, charAt_second]
    simp only [List.mem_cons, not_or] at hzero
    obtain ⟨n, ended, s', hrun, hread⟩ :=
      ih (front ++ [percent, d]) (s.pastDirective args d) (by simp [hfmt]) hzero.2.2
        (by simp [Scan.pastDirective, hp])
    exact ⟨n + 1, ended, s', (serialPrintf_directive hchar hnext n).trans hrun, hread⟩

end Loop

/-- What is promised of a call: it never reads a character behind the NUL, it ends, and it prints the pieces of the
string, each character as it is and each directive converted. -/
structure StaysInside (fmt : List UInt8) (after : Nat → UInt8) (args : Arguments) : Prop where
  reads : ∀ rounds, ∃ ended s, serialPrintf fmt after args rounds .start = some (ended, s) ∧
    ∀ q ∈ s.reads, q ≤ fmt.length
  prints : ∃ rounds s, serialPrintf fmt after args rounds .start = some (true, s) ∧ s.out = render args (pieces fmt) 0

/-- **`serial_printf` stays inside its format string** if and only if the run of `%` the string ends with has even
length, for all arguments and whatever lies behind the string. -/
theorem serialPrintf_inside_iff (fmt : List UInt8) (hzero : 0 ∉ fmt) (after : Nat → UInt8) (args : Arguments) :
    StaysInside fmt after args ↔ Even (trailingPercents fmt) := by
  have hstart : (Scan.start).p = ([] : List UInt8).length := rfl
  constructor
  · intro hinside
    rcases closed_or_open fmt Even.zero with h | h
    · exact h.1
    · -- an open string is read beyond its end
      obtain ⟨rounds, ended, s, hrun, hread⟩ := h.2.serialPrintf after args [] _ (List.nil_append fmt).symm hzero hstart
      obtain ⟨ended', s', hrun', hle⟩ := hinside.reads rounds
      rw [hrun] at hrun'
      obtain ⟨-, rfl⟩ := Prod.mk.inj (Option.some.inj hrun')
      exact absurd (hle _ hread) (Nat.not_succ_le_self _)
  · intro heven
    rcases closed_or_open fmt Even.zero with h | h
    · have hrun := h.2.serialPrintf after args [] _ (List.nil_append fmt).symm hzero hstart
        (fun q hq => absurd hq List.not_mem_nil)
      refine ⟨fun rounds => ?_, ?_⟩
      · obtain ⟨ended, s, heq, hle, -⟩ := hrun rounds
        exact ⟨ended, s, heq, hle⟩
      · obtain ⟨ended, s, heq, -, hdone⟩ := hrun (fmt.length + 1)
        obtain ⟨rfl, hout⟩ := hdone (Nat.lt_succ_self _)
        exact ⟨fmt.length + 1, s, heq, hout⟩
    · exact absurd heven h.1

/-- Arguments that are all 5 -/
def fives : Arguments := ⟨fun _ => 5, fun _ => []⟩

/-- `%u%%` -/
theorem serialPrintf_inside_percentage : StaysInside [37, 117, 37, 37] (fun _ => 65) fives :=
  (serialPrintf_inside_iff _ (by decide) _ _).mpr (by decide)

/-- `50%` in front of other text: the fourth character is the NUL, and the fifth is read. -/
theorem serialPrintf_runs_over : ¬ StaysInside [53, 48, 37] (fun _ => 65) fives := by
  intro h
  obtain ⟨ended, s, hrun, hle⟩ := h.reads 4
  have hread : (serialPrintf [53, 48, 37] (fun _ => 65) fives 4 .start).map (fun r => r.2.reads) =
      some [0, 1, 2, 3, 4] := by decide
  rw [hrun] at hread
  have hreads : s.reads = [0, 1, 2, 3, 4] := Option.some.inj hread
  exact absurd (hle 4 (by rw [hreads]; decide)) (by decide)

end MinOS.Serial
