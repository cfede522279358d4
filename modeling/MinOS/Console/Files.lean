/-
# MinOS.Console.Files — what `write` and `append` store and what `cat` shows.

A line of text passes three buffers on its way into a file: `argv` with 8 entries, `data` with 127 characters and
the file with 4096 bytes. The second one is never too small for a line of 127 characters; the first one is, from
the seventh word of text on. On the way out there is one more: `cat` reads 127 bytes and prints a C string.
-/
import MinOS.Console.WorkingDirectory
import MinOS.Vfs.Append
import MinOS.Vfs.Move

namespace MinOS.Console

open MinOS.Vfs MinOS.Ata NameTree Machine

/-! ## Cutting the line -/

/-- Words without spaces in them -/
def Spaceless (words : List (List UInt8)) : Prop := ∀ w ∈ words, w ≠ [] ∧ space ∉ w

instance (words : List (List UInt8)) : Decidable (Spaceless words) :=
  inferInstanceAs (Decidable (∀ w ∈ words, w ≠ [] ∧ space ∉ w))

/-- The first word of a line, and what is behind the space that ends it -/
theorem consoleWords_append {w : List UInt8} (hne : w ≠ []) (hw : space ∉ w) (max : Nat) {rest : List UInt8}
    (hrest : rest.head? = none ∨ rest.head? = some space) :
    consoleWords (max + 1) (w ++ rest) = w :: consoleWords max rest.tail := by
  have hstart : (w ++ rest).dropWhile (· = space) = w ++ rest := by
    obtain ⟨c, w, rfl⟩ := List.exists_cons_of_ne_nil hne
    have hc : c ≠ space := fun he => hw (by simp [he])
    rw [List.cons_append, List.dropWhile_cons_of_neg (by simpa using hc)]
  have hall : ∀ c ∈ w, decide (c ≠ space) = true := by
    intro c hc
    rw [decide_eq_true_eq]
    rintro rfl
    exact hw hc
  have hstop : rest.takeWhile (· ≠ space) = [] ∧ rest.dropWhile (· ≠ space) = rest := by
    cases rest with
    | nil => exact ⟨rfl, rfl⟩
    | cons c rest =>
      have hc : c = space := by simpa using hrest
      subst hc
      exact ⟨by simp, by simp⟩
  rw [consoleWords, hstart, if_neg (by simp [hne]), List.takeWhile_append_of_pos hall,
    List.dropWhile_append_of_pos hall, hstop.1, hstop.2, List.append_nil]

/-- A line of words with single spaces between them is cut into these words, as many as there is room for. -/
theorem consoleWords_intercalate (max : Nat) : ∀ {words : List (List UInt8)}, Spaceless words →
    consoleWords max (List.intercalate [space] words) = words.take max := by
  induction max with
  | zero => exact fun _ => rfl
  | succ max ih =>
    intro words hwords
    cases words with
    | nil => rfl
    | cons w words =>
      obtain ⟨hne, hw⟩ := hwords w List.mem_cons_self
      have htail : Spaceless words := fun x hx => hwords x (List.mem_cons_of_mem _ hx)
      rw [intercalate_cons_eq_flatMap, List.take_succ_cons, ← ih htail, consoleWords_append hne hw]
      · cases words with
        | nil => rfl
        | cons x words => rw [intercalate_cons_eq_flatMap]; rfl
      · cases words with
        | nil => exact Or.inl rfl
        | cons x words => exact Or.inr rfl

/-! ## Putting the text together again -/

theorem assemble_eq (words : List (List UInt8)) : ∀ {data : List UInt8},
    (data ++ words.flatMap (space :: ·)).length ≤ commandMax →
    assemble words data false = data ++ words.flatMap (space :: ·) := by
  induction words with
  | nil => simp [assemble]
  | cons w words ih =>
    intro data hlen
    have hroom : data.length + (w.length + 1) ≤ commandMax := by
      simp only [List.flatMap_cons, List.length_append, List.length_cons] at hlen
      omega
    have hword : appendWord data w false = data ++ space :: w := by
      rw [appendWord, if_pos ⟨rfl, by omega⟩, List.take_of_length_le]
      · simp
      · simp only [List.length_append, List.length_singleton]
        omega
    have hall : data ++ (w :: words).flatMap (space :: ·) = data ++ space :: w ++ words.flatMap (space :: ·) := by
      simp
    rw [assemble, hword, ih (by rw [← hall]; exact hlen), hall]

/-- **The second buffer loses nothing.** -/
theorem assemble_eq_intercalate {words : List (List UInt8)}
    (hlen : (List.intercalate [space] words).length ≤ commandMax) :
    assemble words [] true = List.intercalate [space] words := by
  cases words with
  | nil => rfl
  | cons w words =>
    rw [intercalate_cons_eq_flatMap] at hlen ⊢
    have hword : appendWord [] w true = w := by
      rw [List.length_append] at hlen
      rw [appendWord, if_neg (by simp)]
      exact List.take_of_length_le (by simp only [List.length_nil]; omega)
    rw [assemble, hword, assemble_eq words hlen]

theorem intercalate_eq_append (w : List UInt8) (words : List (List UInt8)) (max : Nat) :
    List.intercalate [space] (w :: words) = List.intercalate [space] ((w :: words).take (max + 1)) ++
      (words.drop max).flatMap (space :: ·) := by
  rw [List.take_succ_cons, intercalate_cons_eq_flatMap, intercalate_cons_eq_flatMap, List.append_assoc,
    ← List.flatMap_append, List.take_append_drop]

/-- The text of the first words, and that of all of them -/
theorem take_intercalate_eq_iff {words : List (List UInt8)} (hne : words ≠ []) {max : Nat} (hmax : 0 < max)
    (room : Nat) :
    (List.intercalate [space] (words.take max)).take room = (List.intercalate [space] words).take room ↔
      words.length ≤ max ∨ room ≤ (List.intercalate [space] (words.take max)).length := by
  obtain ⟨w, words, rfl⟩ := List.exists_cons_of_ne_nil hne
  obtain ⟨max, rfl⟩ := Nat.exists_eq_succ_of_ne_zero hmax.ne'
  have hnone : (words.drop max).flatMap (space :: ·) = [] ↔ (w :: words).length ≤ max + 1 := by
    rw [List.flatMap_eq_nil_iff, List.length_cons, Nat.add_le_add_iff_right, ← List.drop_eq_nil_iff]
    constructor
    · intro hall
      rw [List.eq_nil_iff_forall_not_mem]
      exact fun x hx => absurd (hall x hx) (List.cons_ne_nil _ _)
    · intro hnil x hx
      rw [hnil] at hx
      exact absurd hx List.not_mem_nil
  rw [intercalate_eq_append w words max, List.take_append, List.self_eq_append_right, List.take_eq_nil_iff, hnone,
    Nat.sub_eq_zero_iff_le, or_comm]

/-! ## What a file holds -/

/-- The bytes of a file: those in its sectors, or without a disk those in memory -/
def heldBytes (s : State) (n : Slot) : List UInt8 :=
  (List.ofFn (if s.diskBacked then blockAt s.drive (s.records n).dataLba else s.contents n)).take
    (s.records n).size.toNat

/-- A byte of the row in memory gets into the file: there is no disk, or the byte is in one of the sectors that the
drive stores. -/
def Lands (s : State) (n : Slot) (k : Fin 4096) : Prop :=
  s.diskBacked = true → k.val < 512 * sectorsStored s.drive (s.records n).dataLba

instance (s : State) (n : Slot) (k : Fin 4096) : Decidable (Lands s n k) :=
  inferInstanceAs (Decidable (_ → _))

theorem lands_of_volatile {s : State} (hd : ¬ s.diskBacked = true) (n : Slot) (k : Fin 4096) : Lands s n k :=
  fun hc => absurd hc hd

/-- What a write of this text from `pos` on has to find in place on a disk -/
structure InPlace (s : State) (n : Slot) (pos : Nat) (text : List UInt8) : Prop where
  /-- In the sectors that are stored: the row before the text is what the file holds. -/
  before : ∀ k : Fin 4096, k.val < pos → k.val < 512 * sectorsStored s.drive (slotLba n) →
    s.contents n k = blockAt s.drive (slotLba n) k
  /-- In the sectors that are not: the text is there already. -/
  behind : ∀ (k : Fin 4096) c, pos ≤ k.val → 512 * sectorsStored s.drive (slotLba n) ≤ k.val →
    text[k.val - pos]? = some c → blockAt s.drive (slotLba n) k = c

/-- If the drive stores all eight sectors only the row matters. -/
theorem inPlace_iff_of_stored {s : State} {n : Slot} (h : sectorsStored s.drive (slotLba n) = 8) (pos : Nat)
    (text : List UInt8) : InPlace s n pos text ↔
      ∀ k : Fin 4096, k.val < pos → s.contents n k = blockAt s.drive (slotLba n) k := by
  constructor
  · exact fun hplace k hk => hplace.before k hk (by rw [h]; exact k.isLt)
  · refine fun hrow => ⟨fun k hk _ => hrow k hk, fun k c _ hk _ => ?_⟩
    rw [h] at hk
    exact absurd k.isLt (Nat.not_lt.mpr hk)

/-- The first bytes of a row, one by one -/
theorem take_ofFn_eq_iff_getElem? (b : Block) {bytes : List UInt8} {size : Nat} (hlen : bytes.length = size)
    (hsize : size ≤ 4096) : (List.ofFn b).take size = bytes ↔ ∀ (k : Fin 4096) c, bytes[k.val]? = some c → b k = c := by
  constructor
  · rintro rfl k c hc
    obtain ⟨hk, hc⟩ := List.getElem?_eq_some_iff.mp hc
    rw [List.getElem_take, List.getElem_ofFn] at hc
    exact hc
  · intro hall
    apply List.ext_getElem
    · rw [List.length_take, List.length_ofFn, hlen, Nat.min_eq_left hsize]
    · intro k hk hk'
      rw [List.getElem_take, List.getElem_ofFn]
      exact hall ⟨k, by omega⟩ _ (List.getElem?_eq_getElem hk')

/-- The row in memory after a write, before the offset … -/
theorem written_contents_of_lt (s : State) (n : Slot) {pos : Nat} (d : List UInt8) {k : Fin 4096} (hk : k.val < pos) :
    (written s n pos d).contents n k = s.contents n k := by
  rw [written_contents, Function.update_self, blit, if_neg fun hc => absurd hc.1 (Nat.not_le.mpr hk)]

/-- … and behind it -/
theorem written_contents_of_getElem? (s : State) (n : Slot) {pos : Nat} {d : List UInt8} {k : Fin 4096} {c : UInt8}
    (hk : pos ≤ k.val) (hc : (d.take (vfsContentMax - pos))[k.val - pos]? = some c) :
    (written s n pos d).contents n k = c := by
  obtain ⟨hlt, -⟩ := List.getElem?_eq_some_iff.mp hc
  rw [written_contents, Function.update_self, blit, if_pos ⟨hk, by omega⟩, List.getD_eq_getElem?_getD, hc]
  rfl

section Held

variable {s : State} (h : Wf s.records) {n : Slot} (hw : Writable s.records n)
include h hw

theorem heldBytes_length : (heldBytes s n).length = (s.records n).size.toNat := by
  rw [heldBytes, List.length_take, List.length_ofFn]
  exact Nat.min_eq_left (h.size n hw.used)

/-- The row in memory is what the file holds, unless a disk knows better. -/
theorem take_contents_eq_iff : (List.ofFn (s.contents n)).take (s.records n).size.toNat = heldBytes s n ↔
    (s.diskBacked = true → Coherent s n) := by
  have hlba := h.lba n (h.ne_root_of_writable hw) hw.used
  rw [heldBytes, hlba]
  by_cases hd : s.diskBacked = true
  · rw [if_pos hd, take_ofFn_eq_iff]
    exact ⟨fun hrow _ => hrow, fun hrow => hrow hd⟩
  · rw [if_neg hd]
    exact iff_of_true rfl fun hc => absurd hc hd

/-- On a disk a byte lands if its sector is stored. -/
theorem lands_iff (hd : s.diskBacked = true) (k : Fin 4096) :
    Lands s n k ↔ k.val < 512 * sectorsStored s.drive (slotLba n) := by
  rw [Lands, h.lba n (h.ne_root_of_writable hw) hw.used]
  exact ⟨fun hk => hk hd, fun hk _ => hk⟩

/-- **What a write leaves in the file**: the row in memory where it lands, and what was there where it does not -/
theorem heldBytes_writeAt (pos : Nat) (d : List UInt8) : heldBytes (writeAt s n pos d).2 n =
    (List.ofFn fun k => if Lands s n k then (written s n pos d).contents n k
      else blockAt s.drive (slotLba n) k).take (writtenSize pos d).toNat := by
  have hlba := h.lba n (h.ne_root_of_writable hw) hw.used
  have hsize : ((writeAt s n pos d).2.records n).size = writtenSize pos d := by
    rw [writeAt_records, Function.update_self]
  have hlba' : ((writeAt s n pos d).2.records n).dataLba = slotLba n := by
    rw [writeAt_records, Function.update_self]
    exact hlba
  rw [heldBytes, hsize, hlba']
  congr 2
  rw [writeAt_eq]
  by_cases hd : s.diskBacked = true
  · -- the flush does not touch the data sectors
    have hblock := blockAt_writeSectors_apply (slotLba n) ((written s n pos d).contents n) s.drive
    have hlands := lands_iff h hw hd
    rw [if_pos hd, hlba]
    split <;> rename_i drive heq <;> rw [heq] at hblock
    · rw [persist_diskBacked, blockAt_persist, if_pos (show (written s n pos d).diskBacked = true from hd)]
      funext k
      rw [hblock k]
      simp only [hlands]
    · rw [if_pos (show (written s n pos d).diskBacked = true from hd)]
      funext k
      rw [hblock k]
      simp only [hlands]
  · rw [if_neg hd, persist_diskBacked, if_neg (show ¬ (written s n pos d).diskBacked = true from hd),
      persist_contents]
    funext k
    rw [if_pos (lands_of_volatile hd n k)]

/-- If all of the row lands the file is what was in the row as far as the offset, then the data. -/
theorem heldBytes_writeAt_of_lands (hlands : ∀ k, Lands s n k) {pos : Nat} (hpos : pos ≤ vfsContentMax)
    (d : List UInt8) : heldBytes (writeAt s n pos d).2 n =
      (List.ofFn (s.contents n)).take pos ++ d.take (vfsContentMax - pos) := by
  rw [heldBytes_writeAt h hw, ← take_written s n hpos d, written_records, Function.update_self]
  simp only [hlands, if_true]

section Texts

variable {pos : Nat} (hpos : pos ≤ (s.records n).size.toNat)
include hpos

theorem take_heldBytes_length : ((heldBytes s n).take pos).length = pos := by
  rw [List.length_take, heldBytes_length h hw]
  exact Nat.min_eq_left hpos

/-- The bytes before the text … -/
theorem getElem?_before {text : List UInt8} {k : Fin 4096} (hk : k.val < pos) {c : UInt8} :
    ((heldBytes s n).take pos ++ text)[k.val]? = some c ↔
      (if s.diskBacked then blockAt s.drive (slotLba n) else s.contents n) k = c := by
  have hlength := take_heldBytes_length h hw hpos
  rw [List.getElem?_append_left (by omega), List.getElem?_take_of_lt hk, heldBytes,
    h.lba n (h.ne_root_of_writable hw) hw.used, List.getElem?_take_of_lt (by omega), List.getElem?_ofFn,
    dif_pos k.isLt, Option.some.injEq]

/-- … and those of the text -/
theorem getElem?_behind {text : List UInt8} {k : Fin 4096} (hk : pos ≤ k.val) :
    ((heldBytes s n).take pos ++ text.take (4096 - pos))[k.val]? = text[k.val - pos]? := by
  have hlength := take_heldBytes_length h hw hpos
  rw [List.getElem?_append_right (by omega), hlength, List.getElem?_take_of_lt (by omega)]

/-- A byte of the row as it is after the write: before the text the old one, then the text -/
theorem written_eq_iff {part text : List UInt8} (htext : part.take (4096 - pos) = text.take (4096 - pos))
    {k : Fin 4096} {c : UInt8} (hc : ((heldBytes s n).take pos ++ text.take (4096 - pos))[k.val]? = some c) :
    (written s n pos part).contents n k = c ↔ (k.val < pos → s.contents n k = c) := by
  rcases Nat.lt_or_ge k.val pos with hk | hk
  · rw [written_contents_of_lt s n part hk]
    exact ⟨fun heq _ => heq, fun heq => heq hk⟩
  · refine iff_of_true ?_ fun hlt => absurd hlt (Nat.not_lt.mpr hk)
    apply written_contents_of_getElem? s n hk
    rw [show vfsContentMax = 4096 from rfl, htext, List.getElem?_take_of_lt (by omega)]
    exact (getElem?_behind h hw hpos hk).symm.trans hc

/-- Byte by byte: without a disk every byte is what it should be, and on a disk if the rest is in place. -/
theorem bytes_iff_inPlace {part text : List UInt8} (htext : part.take (4096 - pos) = text.take (4096 - pos)) :
    (∀ (k : Fin 4096) c, ((heldBytes s n).take pos ++ text.take (4096 - pos))[k.val]? = some c →
        (if Lands s n k then (written s n pos part).contents n k else blockAt s.drive (slotLba n) k) = c) ↔
      (s.diskBacked = true → InPlace s n pos text) := by
  by_cases hd : s.diskBacked = true
  · have hfront : ∀ {k : Fin 4096} {c}, k.val < pos →
        (((heldBytes s n).take pos ++ text.take (4096 - pos))[k.val]? = some c ↔
          blockAt s.drive (slotLba n) k = c) := by
      intro k c hk
      rw [getElem?_before h hw hpos hk, if_pos hd]
    simp only [lands_iff h hw hd]
    constructor
    · refine fun hall _ => ⟨fun k hk hst => ?_, fun k c hk hst hc => ?_⟩
      · have hc := (hfront hk).mpr rfl
        have hbyte := hall k _ hc
        rw [if_pos hst, written_eq_iff h hw hpos htext hc] at hbyte
        exact hbyte hk
      · have hbyte := hall k c ((getElem?_behind h hw hpos hk).trans hc)
        rw [if_neg (Nat.not_lt.mpr hst)] at hbyte
        exact hbyte
    · intro hplace k c hc
      split
      · rename_i hst
        rw [written_eq_iff h hw hpos htext hc]
        exact fun hk => ((hplace hd).before k hk hst).trans ((hfront hk).mp hc)
      · rename_i hst
        rcases Nat.lt_or_ge k.val pos with hk | hk
        · exact (hfront hk).mp hc
        · rw [getElem?_behind h hw hpos hk] at hc
          exact (hplace hd).behind k c hk (Nat.not_lt.mp hst) hc
  · refine iff_of_true (fun k c hc => ?_) fun hc => absurd hc hd
    rw [if_pos (lands_of_volatile hd n k), written_eq_iff h hw hpos htext hc]
    intro hk
    rw [getElem?_before h hw hpos hk, if_neg hd] at hc
    exact hc

/-- **When the file holds all of the text after a part of it was written**: the part is as much of the text as there
is room for, and on a disk the rest is in place. -/
theorem heldBytes_writeAt_eq_iff {part text : List UInt8} (hpart : part <+: text) :
    heldBytes (writeAt s n pos part).2 n = (heldBytes s n).take pos ++ text.take (vfsContentMax - pos) ↔
      part.take (vfsContentMax - pos) = text.take (vfsContentMax - pos) ∧
        (s.diskBacked = true → InPlace s n pos text) := by
  have hmax : pos ≤ 4096 := hpos.trans (h.size n hw.used)
  have hwritten := toNat_writtenSize hmax part
  have hlength := take_heldBytes_length h hw hpos
  rw [show vfsContentMax = 4096 from rfl] at hwritten ⊢
  rw [heldBytes_writeAt h hw]
  by_cases htext : part.take (4096 - pos) = text.take (4096 - pos)
  · rw [and_iff_right htext, take_ofFn_eq_iff_getElem?]
    · exact bytes_iff_inPlace h hw hpos htext
    · rw [List.length_append, hlength, ← htext, List.length_take, hwritten, Nat.min_comm]
    · rw [hwritten]
      omega
  · refine iff_of_false (fun heq => htext ?_) fun hall => htext hall.1
    -- the lengths differ
    apply (hpart.take (4096 - pos)).eq_of_length
    have hlen := congrArg List.length heq
    rw [List.length_take, List.length_ofFn, hwritten, List.length_append, hlength] at hlen
    rw [List.length_take]
    omega

end Texts

end Held

/-! ## `write` and `append` -/

/-- The line `write P W1 … Wn`, or `append P W1 … Wn`, with single spaces -/
structure TextLine (append : Bool) where
  name : List UInt8
  path : List UInt8
  words : List (List UInt8)
  name_eq : commandOf name = some (if append then .append else .write)
  spaceless : Spaceless (name :: path :: words)
  words_ne : words ≠ []
  nul_notMem : 0 ∉ List.intercalate [space] (name :: path :: words)
  length_le : (List.intercalate [space] (name :: path :: words)).length ≤ commandMax

/-- The characters of the line -/
def TextLine.line {append : Bool} (l : TextLine append) : Line :=
  ⟨List.intercalate [space] (l.name :: l.path :: l.words), l.nul_notMem, l.length_le⟩

/-- The text of the line -/
def TextLine.text {append : Bool} (l : TextLine append) : List UInt8 := List.intercalate [space] l.words

/-- The text of its first six words -/
def TextLine.kept {append : Bool} (l : TextLine append) : List UInt8 := List.intercalate [space] (l.words.take 6)

/-- The line comes to its end, and the file then holds the text, behind what it held if the line is an
`append`, up to the limit of 4096 bytes. -/
def StoresText (env : Env) (lines : List (List UInt8)) (sh : Shell) {append : Bool} (l : TextLine append)
    (n : Slot) : Prop :=
  ∃ effects sh', consoleCommandLine env lines sh l.line.chars = .ok (effects, sh') ∧
    heldBytes sh'.fs n = ((if append then heldBytes sh.fs n else []) ++ l.text).take vfsContentMax

section Text

variable {append : Bool} (l : TextLine append)

theorem TextLine.consoleWords_line : consoleWords 8 l.line.chars = l.name :: l.path :: l.words.take 6 :=
  consoleWords_intercalate 8 l.spaceless

theorem TextLine.text_length : l.text.length ≤ commandMax := by
  have hlen := l.length_le
  rw [List.intercalate_cons_cons, List.intercalate_cons_of_ne_nil l.words_ne] at hlen
  simp only [List.length_append] at hlen
  rw [TextLine.text]
  omega

theorem TextLine.kept_length : l.kept.length ≤ commandMax := by
  refine Nat.le_trans ?_ l.text_length
  obtain ⟨w, words, hwords⟩ := List.exists_cons_of_ne_nil l.words_ne
  rw [TextLine.kept, TextLine.text, hwords, intercalate_eq_append w words 5, List.length_append]
  exact Nat.le_add_right _ _

/-- The six words are put together again and written. -/
theorem TextLine.execute_eq {sh : Shell} {path : List UInt8} (hnorm : vfsNormalize sh.cwd l.path = .ok (some path))
    {rc : Int} {fs : State} (hwrite : vfsWrite sh.fs path l.kept append = .ok (rc, fs)) (env : Env)
    (lines : List (List UInt8)) : consoleCommandLine env lines sh l.line.chars =
      .ok ([.normalize sh.cwd l.path] ++ .call path :: report rc, { sh with fs }) := by
  have hbranch : consoleCommandLine env lines sh l.line.chars =
      onText append sh (l.name :: l.path :: l.words.take 6) := by
    rw [Console.execute_eq l.consoleWords_line l.name_eq]
    cases append <;> rfl
  have hcount : ¬ (l.name :: l.path :: l.words.take 6).length < 3 := by
    have := List.length_pos_of_ne_nil l.words_ne
    simp only [List.length_cons, List.length_take]
    omega
  rw [hbranch, onText, if_neg hcount, consoleArg_eq rfl hnorm, ok_bind]
  dsimp only
  rw [show (l.name :: l.path :: l.words.take 6).drop 2 = l.words.take 6 from rfl,
    assemble_eq_intercalate l.kept_length, show List.intercalate [space] (l.words.take 6) = l.kept from rfl, hwrite,
    ok_bind]

/-- What is left to compare when the line is executed -/
theorem storesText_iff_held {sh : Shell} (h : Ready sh) {path : List UInt8}
    (hnorm : vfsNormalize sh.cwd l.path = .ok (some path)) {n : Slot} (hfile : fileAt sh.fs.records path = some n)
    (env : Env) (lines : List (List UInt8)) : StoresText env lines sh l n ↔
      heldBytes (writeAt sh.fs n (writePos sh.fs.records n append) l.kept).2 n =
        (heldBytes sh.fs n).take (writePos sh.fs.records n append) ++
          l.text.take (vfsContentMax - writePos sh.fs.records n append) := by
  have hwf := h.inv.wf
  have hw := hwf.writable_of_fileAt hfile
  obtain ⟨q, hq, rfl⟩ := canonical_of_operand h (words_of_line l.line 8)
    (by rw [l.consoleWords_line]; simp) hnorm
  have hwrite := hwf.write_eq hq.arg l.kept append
  rw [show hq.arg.chars = joinParts q from rfl, hfile] at hwrite
  have hexec := l.execute_eq hnorm hwrite env lines
  -- the text as it should be: behind the old one, or alone
  have hwant : ((if append then heldBytes sh.fs n else []) ++ l.text).take vfsContentMax =
      (heldBytes sh.fs n).take (writePos sh.fs.records n append) ++
        l.text.take (vfsContentMax - writePos sh.fs.records n append) := by
    have hlen := heldBytes_length hwf hw
    have hsize := hwf.size n hw.used
    cases append with
    | false => simp [writePos]
    | true =>
      have hall : (heldBytes sh.fs n).take vfsContentMax = heldBytes sh.fs n :=
        List.take_of_length_le (by rw [hlen]; exact hsize)
      have hold : (heldBytes sh.fs n).take (sh.fs.records n).size.toNat = heldBytes sh.fs n :=
        List.take_of_length_le (by rw [hlen])
      show (heldBytes sh.fs n ++ l.text).take vfsContentMax = (heldBytes sh.fs n).take (sh.fs.records n).size.toNat ++
        l.text.take (vfsContentMax - (sh.fs.records n).size.toNat)
      rw [List.take_append, hall, hold, hlen]
  rw [← hwant]
  constructor
  · rintro ⟨effects, sh', hexec', hstored⟩
    rw [hexec] at hexec'
    obtain ⟨-, rfl⟩ := Prod.mk.inj (Except.ok.inj hexec')
    exact hstored
  · exact fun hstored => ⟨_, _, hexec, hstored⟩

theorem TextLine.kept_prefix : l.kept <+: l.text := by
  obtain ⟨w, words, hwords⟩ := List.exists_cons_of_ne_nil l.words_ne
  rw [TextLine.kept, TextLine.text, hwords, intercalate_eq_append w words 5]
  exact List.prefix_append _ _

end Text

/-- **A line of text is stored exactly if it has at most six words**, or the first six of an `append` fill the
file, and on a disk what is not written from the line is in place: in the sectors that the drive stores the row in
memory before the text, in the others the text. -/
theorem text_stored_iff {sh : Shell} (h : Ready sh) {append : Bool} (l : TextLine append) {path : List UInt8}
    (hnorm : vfsNormalize sh.cwd l.path = .ok (some path)) {n : Slot} (hfile : fileAt sh.fs.records path = some n)
    (env : Env) (lines : List (List UInt8)) : StoresText env lines sh l n ↔
      (l.words.length ≤ 6 ∨ append = true ∧ vfsContentMax ≤ (sh.fs.records n).size.toNat + l.kept.length) ∧
      (sh.fs.diskBacked = true → InPlace sh.fs n (writePos sh.fs.records n append) l.text) := by
  have hwf := h.inv.wf
  have hw := hwf.writable_of_fileAt hfile
  have hpos : writePos sh.fs.records n append ≤ (sh.fs.records n).size.toNat := by
    unfold writePos
    split
    · exact Nat.le_refl _
    · exact Nat.zero_le _
  rw [storesText_iff_held l h hnorm hfile, heldBytes_writeAt_eq_iff hwf hw hpos l.kept_prefix]
  refine and_congr_left fun _ => ?_
  rw [TextLine.kept, TextLine.text, take_intercalate_eq_iff l.words_ne (by decide)]
  refine or_congr_right ?_
  show vfsContentMax - writePos sh.fs.records n append ≤ l.kept.length ↔
    append = true ∧ vfsContentMax ≤ (sh.fs.records n).size.toNat + l.kept.length
  cases append with
  | false =>
    have hshort := l.kept_length
    have hroom : ¬ vfsContentMax ≤ l.kept.length := by
      change ¬ 4096 ≤ _
      change _ ≤ 127 at hshort
      omega
    simp [writePos, hroom]
  | true =>
    show vfsContentMax - (sh.fs.records n).size.toNat ≤ l.kept.length ↔ _
    rw [Nat.sub_le_iff_le_add', and_iff_right rfl]

/-! ### On the file `/a` -/

/-- `touch /a` -/
def touchA : Line := ⟨text "touch /a", by decide, by decide⟩

theorem session_withFileA : AnySession noDrive ⟨withFileA, [slash]⟩ :=
  Session.onPath .init touchA trivial canonical_a (by decide)
    (show commandOf (text "touch") = some .touch by decide) (fun _ _ _ _ => rfl) vfsTouch_pathA

theorem fileAt_withFileA : fileAt withFileA.records (joinParts [[97]]) = some 1 := by decide

/-- `append /a y` -/
def appendY : TextLine true where
  name := text "append"
  path := joinParts [[97]]
  words := [text "y"]
  name_eq := by decide
  spaceless := by decide
  words_ne := by decide
  nul_notMem := by decide
  length_le := by decide

/-- A file with one byte, on a disk -/
theorem exists_fileX : ∃ s, Ready ⟨s, [slash]⟩ ∧ Healthy s ∧ Roomy s.drive ∧
    fileAt s.records (joinParts [[97]]) = some 1 ∧ heldBytes s 1 = text "x" ∧ Coherent s 1 := by
  obtain ⟨s₁, s, -, -, hrun, hfile, hread, hsince⟩ := exists_appended
  obtain ⟨hinv, hh, hcount⟩ := hrun.run.healthy (fresh_blankDisk 65544) working_65544
  have hroom : Roomy s.drive := by
    rw [Roomy, hcount]
    exact roomy_65544
  have hw := hinv.wf.writable_of_fileAt hfile
  have hlba := hinv.wf.lba 1 (by decide) hw.used
  have hcoherent := hrun.coherent (fresh_blankDisk 65544) working_65544 roomy_65544 hsince hw
  rw [readBytes_eq hinv hh hroom hfile] at hread
  refine ⟨s, ⟨hinv, [], canonical_nil, rfl⟩, hh, hroom, hfile, ?_, hcoherent⟩
  rw [heldBytes, if_pos hh.backed, hlba]
  exact Option.some.inj hread

/-- An `append` to it is stored. -/
theorem text_stored_y : ∃ s, heldBytes s 1 = text "x" ∧ StoresText ⟨0, 0, 0, 0, 0⟩ [] ⟨s, [slash]⟩ appendY 1 := by
  obtain ⟨s, hready, hh, hroom, hfile, hheld, hcoherent⟩ := exists_fileX
  have hstored := (serves_of_roomy hh.drive.present hroom 1).sectorsStored_eq hh.drive.writes
  refine ⟨s, hheld, (text_stored_iff hready appendY (vfsNormalize_joinParts canonical_a _) hfile _ _).mpr
    ⟨Or.inl (by decide), fun _ => ?_⟩⟩
  rw [inPlace_iff_of_stored hstored]
  exact hcoherent

/-- `write /a 1 2 3 4 5 6 7` -/
def writeSeven : TextLine false where
  name := text "write"
  path := joinParts [[97]]
  words := [text "1", text "2", text "3", text "4", text "5", text "6", text "7"]
  name_eq := by decide
  spaceless := by decide
  words_ne := by decide
  nul_notMem := by decide
  length_le := by decide

/-- The seventh word is lost. -/
theorem text_lost_seventh : AnySession noDrive ⟨withFileA, [slash]⟩ ∧
    fileAt withFileA.records writeSeven.path = some 1 ∧
    ∀ env lines, ¬ StoresText env lines ⟨withFileA, [slash]⟩ writeSeven 1 := by
  refine ⟨session_withFileA, fileAt_withFileA, fun env lines hstored => ?_⟩
  have hready := session_withFileA.ready fresh_noDrive
  have hwf := hready.inv.wf
  have hlost : writeSeven.kept.take vfsContentMax ≠ writeSeven.text.take vfsContentMax := by decide
  rw [storesText_iff_held writeSeven hready (vfsNormalize_joinParts canonical_a _) fileAt_withFileA] at hstored
  exact hlost ((heldBytes_writeAt_eq_iff hwf (hwf.writable_of_fileAt fileAt_withFileA) (Nat.zero_le _)
    writeSeven.kept_prefix).mp hstored).1

/-! ## `cat` -/

/-- The drive, if there is one, delivers the eight sectors of the file. -/
def Delivers (s : State) (n : Slot) : Prop :=
  s.diskBacked = true → (readSectors (s.records n).dataLba (List.finRange 8) (s.contents n) s.drive).1 = true

theorem refresh_fst_iff_delivers {s : State} {n : Slot} : (refresh s n).1 = true ↔ Delivers s n := by
  unfold refresh Delivers
  split
  · rename_i hd
    exact ⟨fun hok _ => hok, fun hok => hok hd⟩
  · rename_i hd
    exact iff_of_true rfl fun hc => absurd hc hd

/-- What is read is what the file holds, up to the size of the buffer. -/
theorem readAt_fst {s : State} {n : Slot} (hok : Delivers s n) (cap : UInt32) :
    (readAt s n cap).1 = some ((heldBytes s n).take cap.toNat) := by
  have hfst := refresh_fst_iff_delivers.mpr hok
  have hrow : (refresh s n).2.contents n =
      if s.diskBacked then blockAt s.drive (s.records n).dataLba else s.contents n := by
    split
    · rename_i hd
      exact refresh_contents hd hfst
    · rename_i hd
      rw [refresh, if_neg hd]
  have hrec := refresh_records s n
  rw [readAt, heldBytes, List.take_take, ← hrow]
  cases hr : refresh s n with
  | mk ok s' =>
    rw [hr] at hfst hrec
    dsimp only at hfst hrec
    subst hfst
    dsimp only
    rw [hrec, Nat.min_comm]

/-- The command comes to its end and has printed the bytes of the file and a newline. -/
def ShowsFile (env : Env) (lines : List (List UInt8)) (sh : Shell) (line : Line) (n : Slot) : Prop :=
  ∃ effects sh', consoleCommandLine env lines sh line.chars = .ok (effects, sh') ∧
    printed effects = heldBytes sh.fs n ++ [newline]

/-- What `cat` prints of a file: 127 bytes, up to the first NUL -/
theorem printed_cat {sh : Shell} (h : Ready sh) {line : Line} {name arg : List UInt8} {rest : List (List UInt8)}
    (hwords : consoleWords 8 line.chars = name :: arg :: rest) (hname : commandOf name = some .cat)
    {path : List UInt8} (hnorm : vfsNormalize sh.cwd arg = .ok (some path)) {n : Slot}
    (hfile : fileAt sh.fs.records path = some n) (env : Env) (lines : List (List UInt8)) :
    ∃ effects sh', consoleCommandLine env lines sh line.chars = .ok (effects, sh') ∧
      (Delivers sh.fs n → printed effects = ((heldBytes sh.fs n).take 127).takeWhile (· ≠ 0) ++ [newline]) ∧
      (¬ Delivers sh.fs n → printed effects = text "error" ++ [newline]) := by
  obtain ⟨q, hq, rfl⟩ := canonical_of_operand h (words_of_line line 8) (by rw [hwords]; simp) hnorm
  have hread := h.inv.wf.read_eq hq.arg 127
  rw [show hq.arg.chars = joinParts q from rfl, hfile] at hread
  dsimp only at hread
  rw [execute_eq hwords hname, branch, concatenate, consoleArg_eq rfl hnorm, ok_bind]
  dsimp only
  rw [hread, ok_bind]
  by_cases hok : Delivers sh.fs n
  · have hdata := readAt_fst hok 127
    cases hr : readAt sh.fs n 127 with
    | mk data fs =>
      rw [hr] at hdata
      dsimp only at hdata
      subst hdata
      refine ⟨_, _, rfl, fun _ => ?_, fun hc => absurd hok hc⟩
      simp
  · have hdata : (readAt sh.fs n 127).1 = none := readAt_fst_of_fail
      (Bool.eq_false_iff.mpr fun hc => hok (refresh_fst_iff_delivers.mp hc))
    cases hr : readAt sh.fs n 127 with
    | mk data fs =>
      rw [hr] at hdata
      dsimp only at hdata
      subst hdata
      exact ⟨_, _, rfl, fun hc => absurd hc hok, fun _ => rfl⟩

theorem takeWhile_take_eq_iff (bytes : List UInt8) (cap : Nat) :
    (bytes.take cap).takeWhile (· ≠ 0) = bytes ↔ bytes.length ≤ cap ∧ 0 ∉ bytes := by
  constructor
  · intro heq
    constructor
    · have hlen := (List.takeWhile_sublist (· ≠ 0) (l := bytes.take cap)).length_le
      rw [heq, List.length_take] at hlen
      omega
    · intro h0
      rw [← heq] at h0
      have := List.mem_takeWhile_imp h0
      simp at this
  · rintro ⟨hlen, h0⟩
    rw [List.take_of_length_le hlen, List.takeWhile_eq_self_iff]
    intro c hc
    rw [decide_eq_true_eq]
    rintro rfl
    exact h0 hc

/-- **`cat` shows the whole file exactly if it has at most 127 bytes and no NUL**, and its sectors can be read: what
is printed then is an error, the same only if that is what the file holds. -/
theorem cat_shows_iff {sh : Shell} (h : Ready sh) {line : Line}
    {name arg : List UInt8} {rest : List (List UInt8)} (hwords : consoleWords 8 line.chars = name :: arg :: rest)
    (hname : commandOf name = some .cat) {path : List UInt8} (hnorm : vfsNormalize sh.cwd arg = .ok (some path))
    {n : Slot} (hfile : fileAt sh.fs.records path = some n) (env : Env) (lines : List (List UInt8)) :
    ShowsFile env lines sh line n ↔ (heldBytes sh.fs n).length ≤ 127 ∧ 0 ∉ heldBytes sh.fs n ∧
      (Delivers sh.fs n ∨ heldBytes sh.fs n = text "error") := by
  obtain ⟨effects, sh', hexec, hread, hfail⟩ := printed_cat h hwords hname hnorm hfile env lines
  have hshows : ShowsFile env lines sh line n ↔ printed effects = heldBytes sh.fs n ++ [newline] := by
    constructor
    · rintro ⟨effects', sh'', hexec', hprinted⟩
      rw [hexec] at hexec'
      obtain ⟨rfl, -⟩ := Prod.mk.inj (Except.ok.inj hexec')
      exact hprinted
    · exact fun hprinted => ⟨effects, sh', hexec, hprinted⟩
  rw [hshows]
  by_cases hok : Delivers sh.fs n
  · rw [hread hok, List.append_left_inj, takeWhile_take_eq_iff]
    simp [hok]
  · rw [hfail hok, List.append_left_inj, eq_comm]
    constructor
    · intro heq
      rw [heq]
      exact ⟨by decide, by decide, Or.inr rfl⟩
    · rintro ⟨-, -, hc | heq⟩
      · exact absurd hc hok
      · exact heq

/-! ### On the file `/a` -/

/-- `cat /a` -/
def catA : Line := ⟨text "cat /a", by decide, by decide⟩

theorem consoleWords_catA : consoleWords 8 catA.chars = [text "cat", joinParts [[97]]] := by decide

/-- One byte is shown. -/
theorem cat_shows_x : ∃ s, heldBytes s 1 = text "x" ∧ ShowsFile ⟨0, 0, 0, 0, 0⟩ [] ⟨s, [slash]⟩ catA 1 := by
  obtain ⟨s, hready, hh, hroom, hfile, hheld, -⟩ := exists_fileX
  have hw := hready.inv.wf.writable_of_fileAt hfile
  have hlba := hready.inv.wf.lba 1 (by decide) hw.used
  have hserves : Serves s.drive (s.records 1).dataLba := by
    rw [hlba]
    exact serves_of_roomy hh.drive.present hroom 1
  have hdelivers : Delivers s 1 :=
    refresh_fst_iff_delivers.mp ((refresh_fst_iff hh.backed hh.drive.reads).mpr hserves)
  refine ⟨s, hheld, (cat_shows_iff hready consoleWords_catA (by decide) (vfsNormalize_joinParts canonical_a _)
    hfile _ _).mpr ⟨?_, ?_, Or.inl hdelivers⟩⟩
  · show (heldBytes s 1).length ≤ 127
    rw [hheld]
    decide
  · show 0 ∉ heldBytes s 1
    rw [hheld]
    decide

/-- An `append` in a session without a disk -/
theorem Session.append {d : Drive} (hd : Fresh d) {sh : Shell} (hs : AnySession d sh)
    (hvolatile : sh.fs.diskBacked = false) {q : List (List UInt8)} (hq : Canonical q) {n : Slot}
    (hfile : fileAt sh.fs.records (joinParts q) = some n) (l : TextLine true) (hpath : l.path = joinParts q) :
    ∃ sh', AnySession d sh' ∧ sh'.fs.diskBacked = false ∧ fileAt sh'.fs.records (joinParts q) = some n ∧
      heldBytes sh'.fs n = heldBytes sh.fs n ++ l.kept.take (vfsContentMax - (heldBytes sh.fs n).length) := by
  have hwf := (hs.ready hd).inv.wf
  have hw := hwf.writable_of_fileAt hfile
  have hrow := (take_contents_eq_iff hwf hw).mpr fun hc => by rw [hvolatile] at hc; cases hc
  have hlands : ∀ k, Lands sh.fs n k := lands_of_volatile (by rw [hvolatile]; simp) n
  have hheld := heldBytes_writeAt_of_lands hwf hw hlands (hwf.writePos_le hw true) l.kept
  have hbacked : (writeAt sh.fs n (writePos sh.fs.records n true) l.kept).2.diskBacked = false := by
    rw [writeAt_eq, hvolatile, if_neg (by simp), persist_diskBacked]
    exact hvolatile
  have hwrite := hwf.write_eq hq.arg l.kept true
  rw [show hq.arg.chars = joinParts q from rfl, hfile] at hwrite
  cases hres : writeAt sh.fs n (writePos sh.fs.records n true) l.kept with
  | mk rc fs =>
    dsimp only at hwrite
    rw [hres] at hwrite hheld hbacked
    have hexec := l.execute_eq (hpath ▸ vfsNormalize_joinParts hq sh.cwd) hwrite ⟨0, 0, 0, 0, 0⟩ []
    refine ⟨{ sh with fs }, .enter hs trivial hexec (by simp [halt_notMem_report]), hbacked,
      hwf.fileAt_of_write (p := hq.arg) hwrite hfile, ?_⟩
    rw [heldBytes_length hwf hw, ← hrow]
    exact hheld

/-- `append /a xxx…`, with 64 characters -/
def appendX : TextLine true where
  name := text "append"
  path := joinParts [[97]]
  words := [List.replicate 64 120]
  name_eq := by decide
  spaceless := by decide
  words_ne := by decide
  nul_notMem := by decide
  length_le := by decide

/-- A file of 128 bytes is not shown. -/
theorem cat_cuts : ∃ sh, AnySession noDrive sh ∧ fileAt sh.fs.records (joinParts [[97]]) = some 1 ∧
    (heldBytes sh.fs 1).length = 128 ∧ ∀ env lines, ¬ ShowsFile env lines sh catA 1 := by
  obtain ⟨sh₁, hs₁, hv₁, hf₁, hh₁⟩ := Session.append fresh_noDrive session_withFileA rfl canonical_a fileAt_withFileA
    appendX rfl
  obtain ⟨sh₂, hs₂, -, hf₂, hh₂⟩ := Session.append fresh_noDrive hs₁ hv₁ canonical_a hf₁ appendX rfl
  have hkept : appendX.kept.length = 64 := by decide
  have hlen₁ : (heldBytes sh₁.fs 1).length = 64 := by
    rw [hh₁, show heldBytes withFileA 1 = [] from rfl, List.nil_append, List.length_take, hkept]
    decide
  have hlen₂ : (heldBytes sh₂.fs 1).length = 128 := by
    rw [hh₂, List.length_append, List.length_take, hkept, hlen₁]
    decide
  refine ⟨sh₂, hs₂, hf₂, hlen₂, ?_⟩
  rintro env lines ⟨effects, sh', hexec, hprinted⟩
  obtain ⟨effects', sh'', hexec', hread, hfail⟩ := printed_cat (hs₂.ready fresh_noDrive) consoleWords_catA
    (by decide) (vfsNormalize_joinParts canonical_a _) hf₂ env lines
  rw [hexec] at hexec'
  obtain ⟨rfl, -⟩ := Prod.mk.inj (Except.ok.inj hexec')
  by_cases hok : Delivers sh₂.fs 1
  · rw [hread hok, List.append_left_inj, takeWhile_take_eq_iff] at hprinted
    omega
  · rw [hfail hok, List.append_left_inj] at hprinted
    rw [← hprinted] at hlen₂
    exact absurd hlen₂ (by decide)

end MinOS.Console
