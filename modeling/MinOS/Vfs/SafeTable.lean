/-
# MinOS.Vfs.SafeTable — tables that are safe to have loaded.

`vfs_init` copies 64 records off the disk and checks none of them; every call then follows what they say.
`SafeTable` is what a check would have to establish, record by record, for no call to leave an array:
names end within their 32 bytes; the parent chain of a record stays in the table, on records that cannot
be taken away while it is there; the path of the parent leaves room in the buffer; a file that a call can
name has a size and data sectors of its own. Nothing is asked of records that no call looks at, and paths
need be neither unique nor in normal form, so it is much less than `Wf`.

The module shows that `find` never faults on such a table, and that what the operations do to a table
keeps it safe. The parent chain is what has to be watched: `find` does not ask whether the records on it
are used, so a slot on some chain that is given to a new record moves everything below it.
-/
import MinOS.Vfs.Calls

namespace MinOS.Vfs

open Machine
open Bytes (chars copyStr Terminated)

variable {t t' : Table} {i k : Slot} {stack : List Slot}

/-! ## What is asked of a record -/

/-- The names on a parent chain, from the top down -/
def chainNames (t : Table) (stack : List Slot) : List (List UInt8) :=
  stack.reverse.map fun a => chars (t a).name

/-- The path of the record is in normal form, so that a call can name it. -/
def Nameable (t : Table) (i : Slot) : Prop := ∃ c, Canonical c ∧ candidate t i = .ok (joinParts c)

/-- `find` looks at the record. -/
structure Listed (t : Table) (i : Slot) : Prop where
  ne_root : i ≠ 0
  used : (t i).used ≠ 0
  parent : 0 ≤ (t i).parent.toInt

/-- A file that a call can name; the root record is always named, by `/`. -/
def NamedFile (t : Table) (i : Slot) : Prop :=
  (t i).type = VfsType.file.code ∧ (i = 0 ∨ Listed t i ∧ Nameable t i)

/-- The chain above record `i` is `stack`, and stays: its records are used, and none is a file that
`vfs_remove` could be asked to remove. -/
structure Anchored (t : Table) (i : Slot) (stack : List Slot) : Prop where
  walk : ancestors t 16 (t i).parent.toInt.toNat = .ok stack
  used : ∀ a ∈ stack, (t a).used ≠ 0
  stays : ∀ a ∈ stack, ¬ NamedFile t a
  room : (joinParts (chainNames t stack)).length < vfsPathMax

/-- The eight sectors from `lba` on are data sectors, as far as the drive serves them at all. -/
def DataSectors (served : UInt32 → Bool) (lba : UInt32) : Prop :=
  served lba = true → ∀ j : Fin 8, served (lbaAdd lba j) = true →
    vfsDataLba.toNat ≤ (lbaAdd lba j).toNat ∧ (lbaAdd lba j).toNat < vfsDiskEndLba

/-- **A table that is safe to have loaded**, on a drive that serves the sectors `served` -/
structure SafeTable (served : UInt32 → Bool) (t : Table) : Prop where
  name : ∀ i, i ≠ 0 → (t i).used ≠ 0 → Terminated (t i).name
  chain : ∀ i, Listed t i → ∃ stack, Anchored t i stack
  size : ∀ i, NamedFile t i → (t i).size.toNat ≤ vfsContentMax
  sectors : ∀ i, NamedFile t i → DataSectors served (t i).dataLba

/-! ## The stack walk -/

theorem ancestors_cases {fuel node : Nat} (h : ancestors t (fuel + 1) node = .ok stack) :
    (node = 0 ∧ stack = []) ∨ ∃ (a : Slot) (rest : List Slot), a ≠ 0 ∧ node = a ∧
      ancestors t fuel (toU32 (t a).parent) = .ok rest ∧ stack = a :: rest := by
  rw [ancestors] at h
  split at h
  · rename_i h0
    exact Or.inl ⟨h0, (Except.ok.inj h).symm⟩
  · rename_i h0
    split at h
    · rename_i hlt
      obtain ⟨rest, hrest, hstack⟩ := bind_eq_ok_iff.mp h
      refine Or.inr ⟨⟨node, hlt⟩, rest, ?_, rfl, hrest, (Except.ok.inj hstack).symm⟩
      intro heq
      exact h0 (congrArg Fin.val heq)
    · cases h

theorem ancestors_succ {fuel : Nat} {a : Slot} (ha : a ≠ 0) {rest : List Slot}
    (h : ancestors t fuel (toU32 (t a).parent) = .ok rest) :
    ancestors t (fuel + 1) a = .ok (a :: rest) := by
  have hne : a.val ≠ 0 := fun h0 => ha (Fin.ext h0)
  rw [ancestors, if_neg hne, dif_pos a.isLt]
  show (ancestors t fuel (toU32 (t a).parent) >>= _) = _
  rw [h]
  rfl

theorem ancestors_zero (t : Table) (fuel : Nat) : ancestors t fuel 0 = .ok [] := by
  cases fuel with
  | zero => rfl
  | succ fuel => exact if_pos rfl

theorem ne_zero_of_ancestors {fuel node : Nat} (h : ancestors t fuel node = .ok stack) {a : Slot}
    (ha : a ∈ stack) : a ≠ 0 := by
  induction fuel generalizing node stack with
  | zero =>
    cases h
    cases ha
  | succ fuel ih =>
    rcases ancestors_cases h with ⟨-, rfl⟩ | ⟨b, rest, hb, -, hrest, rfl⟩
    · cases ha
    · rcases List.mem_cons.mp ha with rfl | ha
      · exact hb
      · exact ih hrest ha

/-- The walk reads the parents of the records on the stack and nothing else. -/
theorem ancestors_congr {fuel node : Nat} (h : ancestors t fuel node = .ok stack)
    (hsame : ∀ a ∈ stack, (t' a).parent = (t a).parent) : ancestors t' fuel node = .ok stack := by
  -- One entry of the stack for each step, and only its parent is read.
  induction fuel generalizing node stack with
  | zero => exact h
  | succ fuel ih =>
    rcases ancestors_cases h with ⟨rfl, rfl⟩ | ⟨a, rest, ha, rfl, hrest, rfl⟩
    · exact ancestors_zero t' (fuel + 1)
    · apply ancestors_succ ha
      rw [hsame a List.mem_cons_self]
      exact ih hrest fun b hb => hsame b (List.mem_cons_of_mem a hb)

/-- With one entry less on the stack, the walk stops one record earlier at most. -/
theorem ancestors_take {fuel node : Nat} (h : ancestors t (fuel + 1) node = .ok stack) :
    ancestors t fuel node = .ok (stack.take fuel) := by
  induction fuel generalizing node stack with
  | zero => rfl
  | succ fuel ih =>
    rcases ancestors_cases h with ⟨rfl, rfl⟩ | ⟨a, rest, ha, rfl, hrest, rfl⟩
    · rw [List.take_nil]
      exact ancestors_zero t (fuel + 1)
    · rw [List.take_succ_cons]
      exact ancestors_succ ha (ih hrest)

/-- A record on the stack is where the walk began, or the parent of another one on the stack. -/
theorem mem_ancestors_cases {fuel node : Nat} (h : ancestors t fuel node = .ok stack) {a : Slot}
    (ha : a ∈ stack) : node = a ∨ ∃ b ∈ stack, toU32 (t b).parent = a := by
  induction fuel generalizing node stack with
  | zero =>
    cases h
    cases ha
  | succ fuel ih =>
    rcases ancestors_cases h with ⟨-, rfl⟩ | ⟨b, rest, -, rfl, hrest, rfl⟩
    · cases ha
    · rcases List.mem_cons.mp ha with rfl | ha
      · exact Or.inl rfl
      · right
        rcases ih hrest ha with hb | ⟨c, hc, hca⟩
        · exact ⟨b, List.mem_cons_self, hb⟩
        · exact ⟨c, List.mem_cons_of_mem b hc, hca⟩

/-! ## The path buffer -/

theorem length_joinPart (buf part : List UInt8) :
    (joinPart buf part).length = (if 1 < buf.length then buf.length + 1 else buf.length) + part.length := by
  rw [joinPart, List.length_append]
  split
  · rw [List.length_append, List.length_singleton]
  · rfl

/-- A longer buffer to begin with is a longer path at the end. -/
theorem length_foldl_joinPart_mono (parts : List (List UInt8)) {buf buf' : List UInt8}
    (h : buf.length ≤ buf'.length) :
    (parts.foldl joinPart buf).length ≤ (parts.foldl joinPart buf').length := by
  induction parts generalizing buf buf' with
  | nil => exact h
  | cons x parts ih =>
    rw [List.foldl_cons, List.foldl_cons]
    apply ih
    rw [length_joinPart, length_joinPart]
    split
    · split
      · omega
      · omega
    · split
      · omega
      · omega

theorem length_le_foldl_joinPart (parts : List (List UInt8)) (buf : List UInt8) :
    buf.length ≤ (parts.foldl joinPart buf).length := by
  induction parts generalizing buf with
  | nil => exact Nat.le_refl _
  | cons x parts ih =>
    apply Nat.le_trans _ (ih (joinPart buf x))
    rw [length_joinPart]
    split
    · omega
    · omega

/-- Names at the top that are dropped make the path shorter. -/
theorem length_joinParts_suffix (xs ys : List (List UInt8)) :
    (joinParts ys).length ≤ (joinParts (xs ++ ys)).length := by
  rw [joinParts, joinParts, List.foldl_append]
  exact length_foldl_joinPart_mono ys (length_le_foldl_joinPart xs [slash])

/-- The path of a parent leaves room for the `/`. -/
theorem Canonical.parent_room {q : List (List UInt8)} {x : List UInt8} (hc : Canonical (q ++ [x])) :
    (joinParts q).length < vfsPathMax := by
  have hx : x ≠ [] := (hc.good x (List.mem_append_right q List.mem_cons_self)).ne_nil
  have hpos : 0 < x.length := List.length_pos_iff.mpr hx
  have hfits := hc.length_le
  rw [joinParts_concat, length_joinPart] at hfits
  split at hfits
  · omega
  · omega

/-- The name loop copies a terminated name up to the end of the buffer. -/
theorem appendName_take (cs buf : List UInt8) (h0 : 0 ∈ cs) :
    appendName buf cs = .ok (buf ++ (cs.takeWhile (· ≠ 0)).take (vfsPathMax - buf.length)) := by
  induction cs generalizing buf with
  | nil => cases h0
  | cons c cs ih =>
    by_cases hc : c = 0
    · rw [appendName, if_pos hc, hc, List.takeWhile_cons_of_neg (by decide), List.take_nil,
        List.append_nil]
    · have h0' : 0 ∈ cs := by
        rcases List.mem_cons.mp h0 with h | h
        · exact absurd h.symm hc
        · exact h
      rw [appendName, if_neg hc, List.takeWhile_cons_of_pos (by simpa using hc)]
      -- The copy goes on, or the buffer is full and the rest of the name is dropped.
      by_cases hroom : buf.length < vfsPathMax
      · obtain ⟨room, hroom'⟩ : ∃ room, vfsPathMax - buf.length = room + 1 :=
          ⟨vfsPathMax - buf.length - 1, by omega⟩
        have hrest : vfsPathMax - (buf ++ [c]).length = room := by
          rw [List.length_append, List.length_singleton]
          omega
        rw [if_pos hroom, ih _ h0', hrest, hroom', List.take_succ_cons, List.append_assoc,
          List.singleton_append]
      · have hfull : vfsPathMax - buf.length = 0 := by omega
        rw [if_neg hroom, hfull, List.take_zero, List.append_nil]

/-- **Joining a name**: with room for the `/`, the name is cut off at the end of the buffer. -/
theorem joinName_take {buf : List UInt8} {r : VfsRecord} (hterm : Terminated r.name)
    (hroom : buf.length < vfsPathMax) :
    joinName buf r = .ok ((joinPart buf (chars r.name)).take vfsPathMax) := by
  have h0 : (0 : UInt8) ∈ List.ofFn r.name := by
    obtain ⟨j, hj⟩ := hterm
    exact List.mem_ofFn.mpr ⟨j, hj⟩
  have hlen : (if 1 < buf.length then buf ++ [slash] else buf).length ≤ vfsPathMax := by
    split
    · rw [List.length_append, List.length_singleton]
      omega
    · omega
  have htake : (joinPart buf (chars r.name)).take vfsPathMax =
      (if 1 < buf.length then buf ++ [slash] else buf) ++ (chars r.name).take
        (vfsPathMax - (if 1 < buf.length then buf ++ [slash] else buf).length) := by
    rw [joinPart, List.take_append, List.take_of_length_le hlen]
  have hfits : ((joinPart buf (chars r.name)).take vfsPathMax).length ≤ vfsPathMax :=
    List.length_take_le _ _
  rw [htake] at hfits
  rw [joinName, appendName_take _ _ h0, ok_bind, htake]
  exact if_pos hfits

/-- The names of a chain that fits are joined in full. -/
theorem foldlM_joinName (ks : List Slot) (buf : List UInt8)
    (hterm : ∀ a ∈ ks, Terminated (t a).name)
    (hlen : ((ks.map fun a => chars (t a).name).foldl joinPart buf).length ≤ vfsPathMax) :
    ks.foldlM (fun buf a => joinName buf (t a)) buf =
      .ok ((ks.map fun a => chars (t a).name).foldl joinPart buf) := by
  induction ks generalizing buf with
  | nil => rfl
  | cons a ks ih =>
    rw [List.map_cons, List.foldl_cons] at hlen ⊢
    have hfits : (joinPart buf (chars (t a).name)).length ≤ vfsPathMax :=
      (length_le_foldl_joinPart _ _).trans hlen
    rw [List.foldlM_cons, joinName_eq (hterm a List.mem_cons_self) hfits, ok_bind]
    exact ih _ (fun b hb => hterm b (List.mem_cons_of_mem a hb)) hlen

/-! ## `find` on a safe table -/

section Find

variable {served : UInt32 → Bool} (h : SafeTable served t)
include h

theorem SafeTable.chain_terminated (hanchor : Anchored t i stack) :
    ∀ a ∈ stack, Terminated (t a).name := by
  intro a ha
  exact h.name a (ne_zero_of_ancestors hanchor.walk ha) (hanchor.used a ha)

theorem SafeTable.parentPath_eq (hanchor : Anchored t i stack) :
    parentPath t (t i).parent.toInt.toNat = .ok (joinParts (chainNames t stack)) := by
  have hwalk := hanchor.walk
  rw [parentPath]
  by_cases h0 : (t i).parent.toInt.toNat = 0
  · rw [h0, ancestors_zero] at hwalk
    obtain rfl := Except.ok.inj hwalk
    rw [if_pos h0]
    rfl
  · rw [if_neg h0, hwalk, ok_bind]
    apply foldlM_joinName
    · intro a ha
      exact h.chain_terminated hanchor a (List.mem_reverse.mp ha)
    · exact Nat.le_of_lt hanchor.room

/-- **The path `find` rebuilds**: the names down the chain, the last one cut off if need be. -/
theorem SafeTable.candidate_eq (hi : Listed t i) (hanchor : Anchored t i stack) :
    candidate t i =
      .ok ((joinPart (joinParts (chainNames t stack)) (chars (t i).name)).take vfsPathMax) := by
  rw [candidate, h.parentPath_eq hanchor, ok_bind, List.take_of_length_le (Nat.le_of_lt hanchor.room)]
  exact joinName_take (h.name i hi.ne_root hi.used) hanchor.room

theorem SafeTable.findLoop_runs (normalized : List UInt8) (is : List Slot) (his : ∀ i ∈ is, i ≠ 0) :
    ∃ r, findLoop t normalized is = .ok r ∧
      ∀ i, r = some i → Listed t i ∧ candidate t i = .ok normalized := by
  induction is with
  | nil =>
    refine ⟨none, rfl, ?_⟩
    intro i hi
    cases hi
  | cons k is ih =>
    obtain ⟨r, hr, hfound⟩ := ih fun i hi => his i (List.mem_cons_of_mem k hi)
    rw [findLoop]
    -- Unused records and those without a parent are skipped before their path is rebuilt.
    by_cases hused : (t k).used = 0
    · rw [if_pos hused]
      exact ⟨r, hr, hfound⟩
    · rw [if_neg hused]
      by_cases hparent : (t k).parent.toInt < 0
      · rw [if_pos hparent]
        exact ⟨r, hr, hfound⟩
      · have hk : Listed t k := ⟨his k List.mem_cons_self, hused, by omega⟩
        obtain ⟨stack, hanchor⟩ := h.chain k hk
        have hcand := h.candidate_eq hk hanchor
        rw [if_neg hparent, hcand, ok_bind]
        by_cases heq : (joinPart (joinParts (chainNames t stack)) (chars (t k).name)).take vfsPathMax =
            normalized
        · rw [if_pos heq]
          refine ⟨some k, rfl, ?_⟩
          intro i hi
          cases hi
          exact ⟨hk, heq ▸ hcand⟩
        · rw [if_neg heq]
          exact ⟨r, hr, hfound⟩

/-- **`find` never faults on a safe table**, and what it returns is the root or a listed record whose path
is the normal form of the argument. -/
theorem SafeTable.find_runs (p : PathArg) :
    ∃ r, find t p.chars = .ok r ∧ ∀ i, r = some i →
      ∃ c, canon p.chars = some c ∧ Canonical c ∧
        (i = 0 ∧ c = [] ∨ Listed t i ∧ candidate t i = .ok (joinParts c)) := by
  rw [find, normalizeRoot_eq, ok_bind]
  cases hcanon : canon p.chars with
  | none =>
    refine ⟨none, rfl, ?_⟩
    intro i hi
    cases hi
  | some c =>
    have hc := canonical_of_canon hcanon
    simp only [Option.map_some]
    by_cases hroot : joinParts c = [slash]
    · rw [if_pos hroot]
      refine ⟨some 0, rfl, ?_⟩
      intro i hi
      cases hi
      exact ⟨c, rfl, hc, Or.inl ⟨rfl, (joinParts_eq_root_iff hc.good).mp hroot⟩⟩
    · rw [if_neg hroot]
      obtain ⟨r, hr, hfound⟩ := h.findLoop_runs (joinParts c) slots fun i hi => mem_slots.mp hi
      refine ⟨r, hr, ?_⟩
      intro i hi
      exact ⟨c, rfl, hc, Or.inr (hfound i hi)⟩

/-- A file that was found is a named one. -/
theorem SafeTable.namedFile_of_find {p : PathArg} (hfind : find t p.chars = .ok (some i))
    (htype : (t i).type = VfsType.file.code) : NamedFile t i := by
  obtain ⟨r, hr, hfound⟩ := h.find_runs p
  obtain rfl := Except.ok.inj (hr.symm.trans hfind)
  obtain ⟨c, -, hc, hi⟩ := hfound i rfl
  refine ⟨htype, ?_⟩
  rcases hi with ⟨h0, -⟩ | ⟨hi, hcand⟩
  · exact Or.inl h0
  · exact Or.inr ⟨hi, c, hc, hcand⟩

/-- `parent_and_name` never faults either: the parent is a directory, the root or a listed record, and
its path and the name make up the normal form of the argument. -/
theorem SafeTable.parentAndName_runs (p : PathArg) :
    ∃ r, parentAndName t p.chars = .ok r ∧ ∀ j x, r = some (j, x) →
      (t j).type = VfsType.directory.code ∧ ∃ q, Canonical (q ++ [x]) ∧
        (j = 0 ∨ Listed t j ∧ candidate t j = .ok (joinParts q)) := by
  cases hcanon : canon p.chars with
  | none =>
    refine ⟨none, ?_, ?_⟩
    · rw [parentAndName, normalizeRoot_eq, ok_bind, hcanon]
      rfl
    · intro j x hr
      cases hr
  | some c =>
    rcases List.eq_nil_or_concat' c with rfl | ⟨q, x, rfl⟩
    · refine ⟨none, ?_, ?_⟩
      · rw [parentAndName, normalizeRoot_eq, ok_bind, hcanon]
        rfl
      · intro j x hr
        cases hr
    · have hc := canonical_of_canon hcanon
      obtain ⟨r, hr, hfound⟩ := h.find_runs hc.dropLast.arg
      change find t (joinParts q) = .ok r at hr
      rw [parentAndName_concat hcanon, hr, ok_bind]
      cases r with
      | none =>
        refine ⟨none, rfl, ?_⟩
        intro j x hr
        cases hr
      | some j =>
        dsimp only
        by_cases htype : (t j).type = VfsType.directory.code
        · rw [if_pos htype]
          refine ⟨some (j, x), rfl, ?_⟩
          intro j' x' hr'
          cases hr'
          obtain ⟨c, hcanon', -, hj⟩ := hfound j rfl
          have hq : c = q := Option.some.inj (hcanon'.symm.trans (canon_joinParts hc.dropLast))
          subst hq
          exact ⟨htype, c, hc, hj.imp And.left id⟩
        · rw [if_neg htype]
          refine ⟨none, rfl, ?_⟩
          intro j x hr
          cases hr

end Find

/-! ## What the operations do to a table -/

/-- The used records keep parent and name. -/
def SameEntries (t t' : Table) : Prop :=
  ∀ a, (t a).used ≠ 0 → (t' a).parent = (t a).parent ∧ (t' a).name = (t a).name

theorem joinName_congr {buf : List UInt8} {r r' : VfsRecord} (hname : r'.name = r.name) :
    joinName buf r' = joinName buf r := by
  rw [joinName, joinName, hname]

theorem foldlM_joinName_congr (ks : List Slot) (hname : ∀ a ∈ ks, (t' a).name = (t a).name)
    (buf : List UInt8) :
    ks.foldlM (fun buf a => joinName buf (t' a)) buf = ks.foldlM (fun buf a => joinName buf (t a)) buf := by
  induction ks generalizing buf with
  | nil => rfl
  | cons a ks ih =>
    rw [List.foldlM_cons, List.foldlM_cons, joinName_congr (hname a List.mem_cons_self)]
    congr 1
    funext buf'
    exact ih (fun b hb => hname b (List.mem_cons_of_mem a hb)) buf'

/-- A chain of used records, and the path along it, are as before. -/
theorem Anchored.carry (hsame : SameEntries t t') (hi : Listed t i) (hanchor : Anchored t i stack) :
    ancestors t' 16 (t' i).parent.toInt.toNat = .ok stack ∧ chainNames t' stack = chainNames t stack ∧
      candidate t' i = candidate t i := by
  obtain ⟨hparent, hname⟩ := hsame i hi.used
  have hstack : ∀ a ∈ stack, (t' a).name = (t a).name := fun a ha => (hsame a (hanchor.used a ha)).2
  have hwalk : ancestors t' 16 (t' i).parent.toInt.toNat = .ok stack := by
    rw [hparent]
    exact ancestors_congr hanchor.walk fun a ha => (hsame a (hanchor.used a ha)).1
  -- The walk reads parents and the join reads names, of used records both.
  refine ⟨hwalk, ?_, ?_⟩
  · apply List.map_congr_left
    intro a ha
    exact congrArg chars (hstack a (List.mem_reverse.mp ha))
  · have hpath : parentPath t' (t' i).parent.toInt.toNat = parentPath t (t i).parent.toInt.toNat := by
      rw [parentPath, parentPath, hwalk, hanchor.walk, hparent]
      split
      · rfl
      · rw [ok_bind, ok_bind]
        exact foldlM_joinName_congr _ (fun a ha => hstack a (List.mem_reverse.mp ha)) _
    rw [candidate, candidate, hpath]
    congr 1
    funext parent
    exact joinName_congr hname

section Edits

variable {served : UInt32 → Bool} (h : SafeTable served t)
include h

/-- A record of its old type that was listed before is a named file only if it was one. -/
theorem SafeTable.namedFile_of (hsame : SameEntries t t') (htype : (t' i).type = (t i).type)
    (hlisted : Listed t' i → Listed t i) (hfile : NamedFile t' i) : NamedFile t i := by
  refine ⟨htype ▸ hfile.1, ?_⟩
  rcases hfile.2 with h0 | ⟨hi, c, hc, hcand⟩
  · exact Or.inl h0
  · obtain ⟨stack, hanchor⟩ := h.chain i (hlisted hi)
    rw [(hanchor.carry hsame (hlisted hi)).2.2] at hcand
    exact Or.inr ⟨hlisted hi, c, hc, hcand⟩

/-- A chain stays anchored if its records stay used, with their types. -/
theorem SafeTable.anchored_of (hsame : SameEntries t t') (hi : Listed t i)
    (hanchor : Anchored t i stack) (hused : ∀ a ∈ stack, (t' a).used ≠ 0)
    (htype : ∀ a ∈ stack, (t' a).type = (t a).type) : Anchored t' i stack := by
  obtain ⟨hwalk, hnames, -⟩ := hanchor.carry hsame hi
  refine ⟨hwalk, hused, ?_, ?_⟩
  · intro a ha hfile
    apply hanchor.stays a ha
    apply h.namedFile_of hsame (htype a ha) _ hfile
    intro hlisted
    have hparent := hlisted.parent
    rw [(hsame a (hanchor.used a ha)).1] at hparent
    exact ⟨hlisted.ne_root, hanchor.used a ha, hparent⟩
  · rw [hnames]
    exact hanchor.room

/-! ### Clearing a record -/

/-- `t'` is `t` with some records taken out of use and some sizes changed. -/
structure Trimmed (t t' : Table) : Prop where
  parent : ∀ i, (t' i).parent = (t i).parent
  name : ∀ i, (t' i).name = (t i).name
  type : ∀ i, (t' i).type = (t i).type
  dataLba : ∀ i, (t' i).dataLba = (t i).dataLba
  used : ∀ i, (t' i).used ≠ 0 → (t i).used ≠ 0
  size : ∀ i, (t' i).size = (t i).size ∨ (t' i).size.toNat ≤ vfsContentMax

omit h in
theorem Trimmed.sameEntries (htrim : Trimmed t t') : SameEntries t t' :=
  fun a _ => ⟨htrim.parent a, htrim.name a⟩

omit h in
theorem Trimmed.listed (htrim : Trimmed t t') (hi : Listed t' i) : Listed t i :=
  ⟨hi.ne_root, htrim.used i hi.used, htrim.parent i ▸ hi.parent⟩

/-- A trimmed table is safe if no record on a chain was taken out of use. -/
theorem SafeTable.trim (htrim : Trimmed t t')
    (hkept : ∀ i stack, Listed t i → Anchored t i stack → ∀ a ∈ stack, (t' a).used ≠ 0) :
    SafeTable served t' := by
  have hnamed : ∀ i, NamedFile t' i → NamedFile t i :=
    fun i => h.namedFile_of htrim.sameEntries (htrim.type i) htrim.listed
  refine ⟨?_, ?_, ?_, ?_⟩
  · intro i hi hused
    rw [htrim.name]
    exact h.name i hi (htrim.used i hused)
  · intro i hi
    obtain ⟨stack, hanchor⟩ := h.chain i (htrim.listed hi)
    exact ⟨stack, h.anchored_of htrim.sameEntries (htrim.listed hi) hanchor
      (hkept i stack (htrim.listed hi) hanchor) fun a _ => htrim.type a⟩
  · intro i hfile
    rcases htrim.size i with hsize | hsize
    · rw [hsize]
      exact h.size i (hnamed i hfile)
    · exact hsize
  · intro i hfile
    rw [htrim.dataLba]
    exact h.sectors i (hnamed i hfile)

omit h in
/-- Clearing a record leaves everything else of every record as it was. -/
theorem clear_apply (n i : Slot) : Function.update t n { t n with used := 0 } i =
    { t i with used := if i = n then 0 else (t i).used } := by
  by_cases hi : i = n
  · subst hi
    rw [Function.update_self, if_pos rfl]
  · rw [Function.update_of_ne hi, if_neg hi]

/-- **`records[n].used = 0`** keeps the table safe if `n` is on no chain. -/
theorem SafeTable.clear {n : Slot}
    (hout : ∀ i stack, Listed t i → Anchored t i stack → n ∉ stack) :
    SafeTable served (Function.update t n { t n with used := 0 }) := by
  have happly := clear_apply (t := t) n
  generalize Function.update t n { t n with used := 0 } = t₁ at happly
  have hused : ∀ i, (t₁ i).used = if i = n then 0 else (t i).used := fun i => by rw [happly]
  apply h.trim
  · refine ⟨?_, ?_, ?_, ?_, ?_, ?_⟩
    · exact fun i => by rw [happly]
    · exact fun i => by rw [happly]
    · exact fun i => by rw [happly]
    · exact fun i => by rw [happly]
    · intro i hi
      rw [hused] at hi
      split at hi
      · exact absurd rfl hi
      · exact hi
    · exact fun i => Or.inl (by rw [happly])
  · intro i stack hi hanchor a ha
    have han : a ≠ n := by
      rintro rfl
      exact hout i stack hi hanchor ha
    rw [hused, if_neg han]
    exact hanchor.used a ha

omit h in
theorem toInt_of_toU32 {p : Int16} {n : Slot} (h : toU32 p = n) : p.toInt = n := by
  have hlo := p.le_toInt
  have hhi := p.toInt_lt
  have hn := n.isLt
  rw [toU32] at h
  omega

omit h in
/-- A record without children is on no chain. -/
theorem notMem_chain_of_childless {n : Slot} (hn : slots.any (isChildOf t n) = false) (hi : Listed t i)
    (hanchor : Anchored t i stack) : n ∉ stack := by
  have hchild : ∀ b, b ≠ 0 → (t b).used ≠ 0 → (t b).parent.toInt ≠ n := by
    intro b hb hused hparent
    have hany : slots.any (isChildOf t n) = true := by
      apply List.any_eq_true.mpr
      refine ⟨b, mem_slots.mpr hb, ?_⟩
      simp only [isChildOf, decide_eq_true_eq]
      exact ⟨hused, hparent⟩
    rw [hn] at hany
    cases hany
  -- What is on a chain is the parent of a used record: of `i`, or of another one on the chain.
  intro hmem
  rcases mem_ancestors_cases hanchor.walk hmem with hfirst | ⟨b, hb, hparent⟩
  · have hpos := hi.parent
    exact hchild i hi.ne_root hi.used (by omega)
  · exact hchild b (ne_zero_of_ancestors hanchor.walk hb) (hanchor.used b hb) (toInt_of_toU32 hparent)

/-! ### Writing to a file -/

/-- **`records[n].size = size`** keeps the table safe if the size is one. -/
theorem SafeTable.resize (n : Slot) {size : UInt32} (hsize : size.toNat ≤ vfsContentMax) :
    SafeTable served (Function.update t n { t n with size := size }) := by
  have happly : ∀ i, Function.update t n { t n with size := size } i =
      { t i with size := if i = n then size else (t i).size } := fun i => resize_apply i
  generalize Function.update t n { t n with size := size } = t₁ at happly
  have hused : ∀ i, (t₁ i).used = (t i).used := fun i => by rw [happly]
  apply h.trim
  · refine ⟨?_, ?_, ?_, ?_, ?_, ?_⟩
    · exact fun i => by rw [happly]
    · exact fun i => by rw [happly]
    · exact fun i => by rw [happly]
    · exact fun i => by rw [happly]
    · exact fun i hi => hused i ▸ hi
    · intro i
      rw [happly]
      dsimp only
      split
      · exact Or.inr hsize
      · exact Or.inl rfl
  · intro i stack _ hanchor a ha
    rw [hused]
    exact hanchor.used a ha

/-! ### Creating a record -/

omit h in
theorem toU32_of_nonneg {p : Int16} (hp : 0 ≤ p.toInt) : toU32 p = p.toInt.toNat := by
  have hhi := p.toInt_lt
  rw [toU32]
  omega

omit h in
theorem chainNames_cons (t : Table) (j : Slot) (stack : List Slot) :
    chainNames t (j :: stack) = chainNames t stack ++ [chars (t j).name] := by
  rw [chainNames, List.reverse_cons, List.map_append]
  rfl

omit h in
/-- A chain cut off at the top leaves a shorter path. -/
theorem length_chainNames_take (t : Table) (stack : List Slot) (n : Nat) (x : List UInt8) :
    (joinParts (chainNames t (stack.take n) ++ [x])).length ≤
      (joinParts (chainNames t stack ++ [x])).length := by
  have hsplit : chainNames t stack = chainNames t (stack.drop n) ++ chainNames t (stack.take n) := by
    rw [chainNames, chainNames, chainNames, ← List.map_append, ← List.reverse_append,
      List.take_append_drop]
  rw [hsplit, List.append_assoc]
  exact length_joinParts_suffix _ _

/-- The chain of a record under `j`: `j`, and what the stack still holds of the chain of `j`. There is
room for one more name, because the path of `j` and that name were a path argument. -/
theorem SafeTable.anchored_child {j : Slot} {q : List (List UInt8)} {x : List UInt8}
    (hc : Canonical (q ++ [x])) (hj : Listed t j) (hcand : candidate t j = .ok (joinParts q)) :
    ∃ stack, ancestors t 16 j = .ok stack ∧ (∀ a ∈ stack, (t a).used ≠ 0) ∧
      (∀ a ∈ stack, a ≠ j → ¬ NamedFile t a) ∧
      (joinParts (chainNames t stack)).length < vfsPathMax := by
  obtain ⟨stack, hanchor⟩ := h.chain j hj
  have hwalk := ancestors_take hanchor.walk
  rw [← toU32_of_nonneg hj.parent] at hwalk
  -- The stack has 16 places: with `j` on it, a chain of 16 loses its top.
  refine ⟨j :: stack.take 15, ancestors_succ hj.ne_root hwalk, ?_, ?_, ?_⟩
  · intro a ha
    rcases List.mem_cons.mp ha with rfl | ha
    · exact hj.used
    · exact hanchor.used a (List.mem_of_mem_take ha)
  · intro a ha haj
    rcases List.mem_cons.mp ha with rfl | ha
    · exact absurd rfl haj
    · exact hanchor.stays a (List.mem_of_mem_take ha)
  · rw [h.candidate_eq hj hanchor] at hcand
    have hpath := congrArg List.length (Except.ok.inj hcand)
    rw [List.length_take, ← joinParts_concat] at hpath
    have hroom := hc.parent_room
    have hshort := length_chainNames_take t stack 15 (chars (t j).name)
    rw [chainNames_cons]
    omega

/-- `t'` is `t` with the record `r` in the unused slot `k`. -/
structure Filled (t t' : Table) (k : Slot) (r : VfsRecord) : Prop where
  free : (t k).used = 0
  old : ∀ i, i ≠ k → t' i = t i
  new : t' k = r

omit h in
theorem Filled.ne_of_used {r : VfsRecord} (hf : Filled t t' k r) (hused : (t i).used ≠ 0) : i ≠ k := by
  rintro rfl
  exact hused hf.free

omit h in
theorem Filled.sameEntries {r : VfsRecord} (hf : Filled t t' k r) : SameEntries t t' := by
  intro a hused
  rw [hf.old a (hf.ne_of_used hused)]
  exact ⟨rfl, rfl⟩

omit h in
theorem Filled.listed {r : VfsRecord} (hf : Filled t t' k r) (hik : i ≠ k) (hi : Listed t' i) :
    Listed t i :=
  ⟨hi.ne_root, hf.old i hik ▸ hi.used, hf.old i hik ▸ hi.parent⟩

theorem SafeTable.namedFile_of_filled {r : VfsRecord} (hf : Filled t t' k r) (hik : i ≠ k) :
    NamedFile t' i → NamedFile t i :=
  h.namedFile_of hf.sameEntries (by rw [hf.old i hik]) (hf.listed hik)

/-- The new record is anchored: its parent is the root, or a directory that `find` returned. -/
theorem SafeTable.anchored_new {j : Slot} {q : List (List UInt8)} {x : List UInt8} {type : VfsType}
    (hf : Filled t t' k (newRecord type j k x)) (hdir : (t j).type = VfsType.directory.code)
    (hc : Canonical (q ++ [x])) (hj : j = 0 ∨ Listed t j ∧ candidate t j = .ok (joinParts q)) :
    ∃ stack, Anchored t' k stack := by
  have hparent : (t' k).parent.toInt.toNat = j := by
    rw [hf.new, newRecord_parent]
    rfl
  -- Under the root there is no chain; under a listed directory it is that one and its own chain.
  rcases hj with rfl | ⟨hj, hcand⟩
  · refine ⟨[], ?_, ?_, ?_, ?_⟩
    · rw [hparent]
      exact ancestors_zero t' 16
    · intro a ha
      cases ha
    · intro a ha
      cases ha
    · show [slash].length < vfsPathMax
      decide
  · obtain ⟨stack, hwalk, hused, hstays, hroom⟩ := h.anchored_child hc hj hcand
    refine ⟨stack, ?_, ?_, ?_, ?_⟩
    · rw [hparent]
      exact ancestors_congr hwalk fun a ha => (hf.sameEntries a (hused a ha)).1
    · intro a ha
      rw [hf.old a (hf.ne_of_used (hused a ha))]
      exact hused a ha
    · intro a ha hfile
      have hfile' := h.namedFile_of_filled hf (hf.ne_of_used (hused a ha)) hfile
      by_cases haj : a = j
      · subst haj
        exact absurd (hdir.symm.trans hfile'.1) (by decide)
      · exact hstays a ha haj hfile'
    · have hnames : chainNames t' stack = chainNames t stack := by
        apply List.map_congr_left
        intro a ha
        exact congrArg chars (hf.sameEntries a (hused a (List.mem_reverse.mp ha))).2
      rw [hnames]
      exact hroom

/-- **A new record keeps the table safe**: its slot was unused, so it is on no other record's chain. -/
theorem SafeTable.create {j : Slot} {q : List (List UInt8)} {x : List UInt8} {type : VfsType}
    (hslot : freeSlot t = some k) (hdir : (t j).type = VfsType.directory.code)
    (hc : Canonical (q ++ [x])) (hj : j = 0 ∨ Listed t j ∧ candidate t j = .ok (joinParts q))
    (hsectors : type = .file → DataSectors served (slotLba k)) :
    SafeTable served (Function.update t k (newRecord type j k x)) := by
  have hf : Filled t (Function.update t k (newRecord type j k x)) k (newRecord type j k x) :=
    ⟨(freeSlot_eq_some_iff.mp hslot).2.1, fun i hi => Function.update_of_ne hi _ _,
      Function.update_self _ _ _⟩
  generalize Function.update t k (newRecord type j k x) = t₁ at hf
  -- The new record by itself; for every other one all that `t` says of it still holds.
  refine ⟨?_, ?_, ?_, ?_⟩
  · intro i hi hused
    by_cases hik : i = k
    · rw [hik, hf.new]
      exact newRecord_terminated type j k x
    · rw [hf.old i hik] at hused ⊢
      exact h.name i hi hused
  · intro i hi
    by_cases hik : i = k
    · rw [hik]
      exact h.anchored_new hf hdir hc hj
    · obtain ⟨stack, hanchor⟩ := h.chain i (hf.listed hik hi)
      have hsame : ∀ a ∈ stack, t₁ a = t a := fun a ha => hf.old a (hf.ne_of_used (hanchor.used a ha))
      refine ⟨stack, h.anchored_of hf.sameEntries (hf.listed hik hi) hanchor ?_ ?_⟩
      · intro a ha
        rw [hsame a ha]
        exact hanchor.used a ha
      · intro a ha
        rw [hsame a ha]
  · intro i hfile
    by_cases hik : i = k
    · rw [hik, hf.new]
      exact Nat.zero_le _
    · rw [hf.old i hik]
      exact h.size i (h.namedFile_of_filled hf hik hfile)
  · intro i hfile
    by_cases hik : i = k
    · subst hik
      have htype := hfile.1
      rw [hf.new, newRecord_type] at htype
      rw [hf.new]
      cases type with
      | directory => exact absurd htype (by decide)
      | file => exact hsectors rfl
    · rw [hf.old i hik]
      exact h.sectors i (h.namedFile_of_filled hf hik hfile)

end Edits

/-! ## Tables of the filesystem's own making -/

section WellFormed

variable (h : Wf t)
include h

/-- The chain of a directory is made of directories, and spells its path. -/
theorem Wf.chain_directories {j : Slot} {p : List (List UInt8)} (hp : (links t).Path j p)
    (hdir : (t j).type = VfsType.directory.code) :
    ∀ fuel, p.length ≤ fuel → ∃ stack, ancestors t fuel j = .ok stack ∧ chainNames t stack = p ∧
      ∀ a ∈ stack, (t a).used ≠ 0 ∧ (t a).type = VfsType.directory.code := by
  induction hp with
  | root =>
    intro fuel _
    refine ⟨[], ancestors_zero t fuel, rfl, ?_⟩
    intro a ha
    cases ha
  | @step j p hu hj hp ih =>
    intro fuel hfuel
    rw [List.length_append, List.length_singleton] at hfuel
    obtain ⟨fuel, rfl⟩ : ∃ n, fuel = n + 1 := ⟨fuel - 1, by omega⟩
    -- The parent of a used record is a directory, which is what the induction hypothesis asks.
    obtain ⟨k, hk, -, hkdir⟩ := h.parent j hj hu
    have hup : (links t).up j = k := (h.up_eq_iff hj hu).mpr hk
    rw [hup] at ih
    obtain ⟨stack, hwalk, hnames, hall⟩ := ih hkdir fuel (by omega)
    refine ⟨j :: stack, ?_, ?_, ?_⟩
    · apply ancestors_succ hj
      rw [toU32_of_toInt hk]
      exact hwalk
    · rw [chainNames_cons, hnames]
      rfl
    · intro a ha
      rcases List.mem_cons.mp ha with rfl | ha
      · exact ⟨hu, hdir⟩
      · exact hall a ha

/-- **What the filesystem stores itself is safe to load**, if its files have their sectors on the disk. -/
theorem Wf.safeTable {served : UInt32 → Bool}
    (hsectors : ∀ i, Writable t i → DataSectors served (slotLba i)) : SafeTable served t := by
  have hnamed : ∀ i, NamedFile t i → i ≠ 0 ∧ Writable t i := by
    rintro i ⟨htype, rfl | ⟨hi, -⟩⟩
    · exact absurd (h.root_type.symm.trans htype) (by decide)
    · exact ⟨hi.ne_root, hi.used, htype⟩
  refine ⟨fun i hi hu => (h.name i hi hu).1, ?_, ?_, ?_⟩
  · intro i hi
    obtain ⟨j, hj, -, hdir⟩ := h.parent i hi.ne_root hi.used
    obtain ⟨p, hp, hc⟩ := h.path i hi.used
    cases hp with
    | root => exact absurd rfl hi.ne_root
    | @step _ q hu hne hq =>
      rw [(h.up_eq_iff hne hu).mpr hj] at hq
      have hdepth := hc.depth_le
      rw [List.length_append, List.length_singleton] at hdepth
      obtain ⟨stack, hwalk, hnames, hall⟩ := h.chain_directories hq hdir 16 (by omega)
      refine ⟨stack, ?_, fun a ha => (hall a ha).1, ?_, ?_⟩
      · rw [hj, Int.toNat_natCast]
        exact hwalk
      · intro a ha hfile
        exact absurd ((hall a ha).2.symm.trans hfile.1) (by decide)
      · rw [hnames]
        exact hc.parent_room
  · intro i hfile
    exact h.size i (hnamed i hfile).2.used
  · intro i hfile
    obtain ⟨hi, hw⟩ := hnamed i hfile
    rw [h.lba i hi hw.used]
    exact hsectors i hw

end WellFormed

end MinOS.Vfs
