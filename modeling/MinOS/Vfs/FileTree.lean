/-
# MinOS.Vfs.FileTree — what the filesystem is for: a tree of directories and files.

A `Tree` maps canonical paths to directories and files of at most 4096 bytes. Every entry carries a tag
of `0..63`, no two the same one; the root has tag 0, so there are at most 63 others (`card_le`). A new
entry gets the lowest free tag, and a directory is listed in the order of tags. The operations say when
they apply and which one entry they change; nothing here knows of tables, parent links or caches.

Two laws hold of every call (`step_laws`): -1 means an unchanged tree, and entries at paths the call
does not name are untouched.
-/
import MinOS.Vfs.Table

namespace MinOS.Vfs

/-- The contents of a file -/
abbrev FileBytes := {b : List UInt8 // b.length ≤ vfsContentMax}

/-- The first 4096 bytes -/
def FileBytes.clip (b : List UInt8) : FileBytes := ⟨b.take vfsContentMax, List.length_take_le _ _⟩

@[simp] theorem FileBytes.clip_val (b : List UInt8) :
    (FileBytes.clip b).val = b.take vfsContentMax := rfl

/-- What a path can lead to -/
inductive Node
  | directory
  | file (bytes : FileBytes)

/-- The type a node is reported with -/
def Node.type : Node → UInt8
  | .directory => VfsType.directory.code
  | .file _ => VfsType.file.code

/-- The size a node is reported with -/
def Node.size : Node → UInt32
  | .directory => 0
  | .file b => UInt32.ofNat b.val.length

/-- A file tree: tagged nodes at canonical paths, each below a directory -/
structure Tree where
  entry : List (List UInt8) → Option (Slot × Node)
  root : entry [] = some (0, .directory)
  canonical : ∀ {p : List (List UInt8)}, (entry p).isSome → Canonical p
  parent : ∀ {p : List (List UInt8)} {x : List UInt8}, (entry (p ++ [x])).isSome →
    ∃ i, entry p = some (i, .directory)
  tag_inj : ∀ {p q : List (List UInt8)} {i : Slot} {a b : Node},
    entry p = some (i, a) → entry q = some (i, b) → p = q

namespace Tree

/-- The tree with nothing but the root -/
def empty : Tree where
  entry p := if p = [] then some (0, .directory) else none
  root := rfl
  canonical {p} h := by
    by_cases hp : p = []
    · subst hp
      exact ⟨by simp, by simp, by decide⟩
    · simp [hp] at h
  parent h := by simp at h
  tag_inj {p q i a b} hp hq := by
    by_cases h : p = []
    · by_cases h' : q = []
      · rw [h, h']
      · simp [h'] at hq
    · simp [h] at hp

variable {T : Tree} {c : List (List UInt8)}

/-- A file is not the root … -/
theorem file_ne_nil {i : Slot} {b : FileBytes} (h : T.entry c = some (i, .file b)) : c ≠ [] := by
  rintro rfl
  rw [T.root] at h
  cases h

/-- … and only directories have children. -/
theorem leaf_of_not_directory (h : ∀ i, T.entry c ≠ some (i, .directory)) (x : List UInt8) :
    T.entry (c ++ [x]) = none := by
  cases hx : T.entry (c ++ [x]) with
  | none => rfl
  | some e =>
    obtain ⟨i, hi⟩ := T.parent (p := c) (x := x) (by rw [hx]; rfl)
    exact absurd hi (h i)

/-- At most 63 entries beside the root -/
theorem card_le (F : Finset (List (List UInt8))) (h : ∀ p ∈ F, p ≠ [] ∧ (T.entry p).isSome) :
    F.card ≤ 63 := by
  -- tags are an injection into `1..63`
  have hcard : F.card ≤ (Finset.univ.erase (0 : Slot)).card := by
    apply Finset.card_le_card_of_injOn fun p => ((T.entry p).map Prod.fst).getD 0
    · intro p hp
      obtain ⟨hne, hsome⟩ := h p hp
      obtain ⟨⟨i, a⟩, hi⟩ := Option.isSome_iff_exists.mp hsome
      have h0 : i ≠ 0 := by
        rintro rfl
        exact hne (T.tag_inj hi T.root)
      simpa [hi] using h0
    · intro p hp q hq heq
      obtain ⟨⟨i, a⟩, hi⟩ := Option.isSome_iff_exists.mp (h p hp).2
      obtain ⟨⟨j, b⟩, hj⟩ := Option.isSome_iff_exists.mp (h q hq).2
      simp only [hi, hj, Option.map_some, Option.getD_some] at heq
      exact T.tag_inj hi (heq ▸ hj)
  simpa using hcard

/-! ## Changing one leaf -/

/-- When `e` may stand at `c`: a leaf other than the root, below a directory, with a tag of its own -/
structure Fits (T : Tree) (c : List (List UInt8)) (e : Option (Slot × Node)) : Prop where
  ne_root : c ≠ []
  leaf : ∀ x, T.entry (c ++ [x]) = none
  canonical : e.isSome → Canonical c
  parent : e.isSome → ∃ i, T.entry c.dropLast = some (i, .directory)
  tag : ∀ {i : Slot} {a : Node}, e = some (i, a) → ∀ {q : List (List UInt8)} {b : Node},
    T.entry q = some (i, b) → q = c

/-- Replace the entry at one path. -/
def set (T : Tree) (c : List (List UInt8)) (e : Option (Slot × Node)) (h : T.Fits c e) : Tree where
  entry := Function.update T.entry c e
  root := by rw [Function.update_of_ne h.ne_root.symm, T.root]
  canonical {p} hp := by
    by_cases hpc : p = c
    · subst hpc
      rw [Function.update_self] at hp
      exact h.canonical hp
    · rw [Function.update_of_ne hpc] at hp
      exact T.canonical hp
  parent {p x} hx := by
    have hpc : p ≠ c := by
      rintro rfl
      rw [Function.update_of_ne (by simp), h.leaf] at hx
      cases hx
    rw [Function.update_of_ne hpc]
    by_cases hxc : p ++ [x] = c
    · subst hxc
      rw [Function.update_self] at hx
      simpa using h.parent hx
    · rw [Function.update_of_ne hxc] at hx
      exact T.parent hx
  tag_inj {p q i a b} hp hq := by
    by_cases hpc : p = c <;> by_cases hqc : q = c
    · rw [hpc, hqc]
    · rw [hpc, Function.update_self] at hp
      rw [Function.update_of_ne hqc] at hq
      rw [hpc, h.tag hp hq]
    · rw [hqc, Function.update_self] at hq
      rw [Function.update_of_ne hpc] at hp
      rw [hqc, h.tag hq hp]
    · rw [Function.update_of_ne hpc] at hp
      rw [Function.update_of_ne hqc] at hq
      exact T.tag_inj hp hq

/-! ## Operations -/

/-- The entry a path argument names -/
def get (T : Tree) (p : PathArg) : Option (Slot × Node) := (canon p.chars).bind T.entry

open Classical in
/-- The lowest tag of `1..63` no entry has -/
noncomputable def freeTag (T : Tree) : Option Slot :=
  slots.find? fun i => ∀ p a, T.entry p ≠ some (i, a)

theorem freeTag_spec {k : Slot} (h : T.freeTag = some k) (p : List (List UInt8)) (a : Node) :
    T.entry p ≠ some (k, a) := by
  classical
  have hk := List.find?_some h
  rw [decide_eq_true_eq] at hk
  exact hk p a

/-- A create needs an absent target, a directory above it and a free tag. -/
structure MayCreate (T : Tree) (c : List (List UInt8)) (k : Slot) : Prop where
  absent : T.entry c = none
  parent : ∃ i, T.entry c.dropLast = some (i, .directory)
  free : T.freeTag = some k

theorem MayCreate.fits {k : Slot} (h : T.MayCreate c k) (hc : Canonical c) (node : Node) :
    T.Fits c (some (k, node)) where
  ne_root := by
    rintro rfl
    have := h.absent
    rw [T.root] at this
    cases this
  leaf := leaf_of_not_directory fun i => by rw [h.absent]; simp
  canonical _ := hc
  parent _ := h.parent
  tag he _ _ hq := by
    cases he
    exact absurd hq (freeTag_spec h.free _ _)

open Classical in
/-- Add a node. -/
noncomputable def create (T : Tree) (p : PathArg) (node : Node) : Int × Tree :=
  match hp : canon p.chars with
  | none => (-1, T)
  | some c =>
    if h : ∃ k, T.MayCreate c k then
      (0, T.set c (some (h.choose, node)) (h.choose_spec.fits (canonical_of_canon hp) node))
    else (-1, T)

/-- Add an empty file, unless the path is there. -/
noncomputable def touch (T : Tree) (p : PathArg) : Int × Tree :=
  if (T.get p).isSome then (0, T) else T.create p (.file (.clip []))

/-- Only an existing, empty directory other than the root can be removed. -/
structure MayRmdir (T : Tree) (c : List (List UInt8)) : Prop where
  ne_root : c ≠ []
  directory : ∃ i, T.entry c = some (i, .directory)
  leaf : ∀ x, T.entry (c ++ [x]) = none

theorem MayRmdir.fits (h : T.MayRmdir c) : T.Fits c none where
  ne_root := h.ne_root
  leaf := h.leaf
  canonical := nofun
  parent := nofun
  tag := nofun

open Classical in
/-- Remove an empty directory. -/
noncomputable def rmdir (T : Tree) (p : PathArg) : Int × Tree :=
  match canon p.chars with
  | none => (-1, T)
  | some c => if h : T.MayRmdir c then (0, T.set c none h.fits) else (-1, T)

theorem fits_none_of_file {i : Slot} {b : FileBytes} (h : T.entry c = some (i, .file b)) :
    T.Fits c none where
  ne_root := file_ne_nil h
  leaf := leaf_of_not_directory fun j => by rw [h]; simp
  canonical := nofun
  parent := nofun
  tag := nofun

/-- Remove a file. -/
def remove (T : Tree) (p : PathArg) : Int × Tree :=
  match canon p.chars with
  | none => (-1, T)
  | some c =>
    match h : T.entry c with
    | some (_, .file _) => (0, T.set c none (fits_none_of_file h))
    | _ => (-1, T)

/-- The first `cap` bytes of a file -/
def read (T : Tree) (p : PathArg) (cap : UInt32) : Option (List UInt8) :=
  match T.get p with
  | some (_, .file b) => some (b.val.take cap.toNat)
  | _ => none

/-- What a write makes of the old bytes -/
def newBytes (old : FileBytes) (d : List UInt8) (append : Bool) : FileBytes :=
  .clip (if append then old.val ++ d else d)

theorem fits_file {i : Slot} {b : FileBytes} (h : T.entry c = some (i, .file b)) (b' : FileBytes) :
    T.Fits c (some (i, .file b')) where
  ne_root := file_ne_nil h
  leaf := leaf_of_not_directory fun j => by rw [h]; simp
  canonical _ := T.canonical (by rw [h]; rfl)
  parent _ := by
    obtain ⟨q, x, rfl⟩ := (List.eq_nil_or_concat' c).resolve_left (file_ne_nil h)
    simpa using T.parent (by rw [h]; rfl)
  tag he _ _ hq := by
    cases he
    exact T.tag_inj hq h

/-- Replace the bytes of a file. -/
def write (T : Tree) (p : PathArg) (d : List UInt8) (append : Bool) : Int × Tree :=
  match canon p.chars with
  | none => (-1, T)
  | some c =>
    match h : T.entry c with
    | some (i, .file b) =>
      (0, T.set c (some (i, .file (newBytes b d append))) (fits_file h (newBytes b d append)))
    | _ => (-1, T)

/-- Read, touch, write. -/
noncomputable def copy (T : Tree) (src dst : PathArg) : Int × Tree :=
  match T.read src 4096 with
  | none => (-1, T)
  | some b =>
    if (T.touch dst).1 ≠ 0 then (-1, (T.touch dst).2)
    else if ((T.touch dst).2.write dst b false).1 ≠ 0 then (-1, ((T.touch dst).2.write dst b false).2)
    else (0, ((T.touch dst).2.write dst b false).2)

/-- Copy, then remove the source. -/
noncomputable def move (T : Tree) (src dst : PathArg) : Int × Tree :=
  if (T.copy src dst).1 ≠ 0 then (-1, (T.copy src dst).2) else (T.copy src dst).2.remove src

open Classical in
/-- The child with a tag, and its name -/
noncomputable def childAt (T : Tree) (c : List (List UInt8)) (i : Slot) :
    Option (List UInt8 × Node) :=
  if h : ∃ x : List UInt8 × Node, T.entry (c ++ [x.1]) = some (i, x.2) then some h.choose else none

theorem childAt_eq_some_iff {i : Slot} {x : List UInt8 × Node} :
    T.childAt c i = some x ↔ T.entry (c ++ [x.1]) = some (i, x.2) := by
  rw [childAt]
  constructor
  · intro h
    split at h
    · rename_i hex
      cases h
      exact hex.choose_spec
    · cases h
  · intro h
    have hex : ∃ y : List UInt8 × Node, T.entry (c ++ [y.1]) = some (i, y.2) := ⟨x, h⟩
    rw [dif_pos hex]
    have hspec := hex.choose_spec
    -- one tag, one path, one node
    have hname : hex.choose.1 = x.1 := by simpa using T.tag_inj hspec h
    rw [hname, h] at hspec
    have hnode : hex.choose.2 = x.2 := (Prod.mk.inj (Option.some.inj hspec)).2.symm
    exact congrArg some (Prod.ext hname hnode)

/-- The first `max` children of a directory, in the order of tags -/
noncomputable def list (T : Tree) (p : PathArg) (max : UInt32) : Option (List VfsDirent) :=
  match canon p.chars with
  | none => none
  | some c =>
    match T.entry c with
    | some (_, .directory) => some (((slots.filterMap (T.childAt c)).take max.toNat).map
        fun x => ⟨x.1, x.2.type, x.2.size⟩)
    | _ => none

/-- Type and size of an entry -/
def stat (T : Tree) (p : PathArg) : Option VfsStat :=
  (T.get p).map fun e => ⟨e.2.type, e.2.size⟩

/-- One call -/
noncomputable def step (T : Tree) : Op → Reply × Tree
  | .mkdir p => (T.create p .directory).map .code id
  | .rmdir p => (T.rmdir p).map .code id
  | .touch p => (T.touch p).map .code id
  | .remove p => (T.remove p).map .code id
  | .read p cap => (.data (T.read p cap), T)
  | .write p d append => (T.write p d append).map .code id
  | .copy src dst => (T.copy src dst).map .code id
  | .move src dst => (T.move src dst).map .code id
  | .list p max => (.entries (T.list p max), T)
  | .stat p => (.stat (T.stat p), T)

/-! ## What an operation does -/

theorem create_cases (T : Tree) (p : PathArg) (node : Node) :
    (T.create p node = (-1, T) ∧ ∀ c k, canon p.chars = some c → ¬ T.MayCreate c k) ∨
    ∃ c k T', canon p.chars = some c ∧ T.MayCreate c k ∧ T.create p node = (0, T') ∧
      T'.entry = Function.update T.entry c (some (k, node)) := by
  unfold create
  split
  · rename_i hp
    exact Or.inl ⟨rfl, by simp [hp]⟩
  · rename_i c hp
    by_cases h : ∃ k, T.MayCreate c k
    · rw [dif_pos h]
      exact Or.inr ⟨c, _, _, hp, h.choose_spec, rfl, rfl⟩
    · rw [dif_neg h]
      refine Or.inl ⟨rfl, fun c' k hc' hk => h ⟨k, ?_⟩⟩
      rwa [show c = c' from Option.some.inj (hp.symm.trans hc')]

theorem rmdir_cases (T : Tree) (p : PathArg) :
    (T.rmdir p = (-1, T) ∧ ∀ c, canon p.chars = some c → ¬ T.MayRmdir c) ∨
    ∃ c T', canon p.chars = some c ∧ T.MayRmdir c ∧ T.rmdir p = (0, T') ∧
      T'.entry = Function.update T.entry c none := by
  unfold rmdir
  split
  · rename_i hp
    exact Or.inl ⟨rfl, by simp [hp]⟩
  · rename_i c hp
    by_cases h : T.MayRmdir c
    · rw [dif_pos h]
      exact Or.inr ⟨c, _, hp, h, rfl, rfl⟩
    · rw [dif_neg h]
      refine Or.inl ⟨rfl, fun c' hc' => ?_⟩
      rwa [← show c = c' from Option.some.inj (hp.symm.trans hc')]

theorem remove_cases (T : Tree) (p : PathArg) :
    (T.remove p = (-1, T) ∧ ∀ i b, T.get p ≠ some (i, .file b)) ∨
    ∃ c i b T', canon p.chars = some c ∧ T.entry c = some (i, .file b) ∧ T.remove p = (0, T') ∧
      T'.entry = Function.update T.entry c none := by
  unfold remove
  split
  · rename_i hp
    exact Or.inl ⟨rfl, by simp [get, hp]⟩
  · rename_i c hp
    split
    · rename_i i b h
      exact Or.inr ⟨c, i, b, _, hp, h, rfl, rfl⟩
    · rename_i h
      refine Or.inl ⟨rfl, fun i b hb => h i b ?_⟩
      rwa [get, hp] at hb

theorem write_cases (T : Tree) (p : PathArg) (d : List UInt8) (append : Bool) :
    (T.write p d append = (-1, T) ∧ ∀ i b, T.get p ≠ some (i, .file b)) ∨
    ∃ c i b T', canon p.chars = some c ∧ T.entry c = some (i, .file b) ∧
      T.write p d append = (0, T') ∧
      T'.entry = Function.update T.entry c (some (i, .file (newBytes b d append))) := by
  unfold write
  split
  · rename_i hp
    exact Or.inl ⟨rfl, by simp [get, hp]⟩
  · rename_i c hp
    split
    · rename_i i b h
      exact Or.inr ⟨c, i, b, _, hp, h, rfl, rfl⟩
    · rename_i h
      refine Or.inl ⟨rfl, fun i b hb => h i b ?_⟩
      rwa [get, hp] at hb

/-! ## Laws of every call -/

/-- Refused with nothing changed, or done; entries at other paths than `ps` are untouched. -/
structure Lawful (T : Tree) (ps : List PathArg) (x : Int × Tree) : Prop where
  code : x = (-1, T) ∨ x.1 = 0
  frame : ∀ q, (∀ p ∈ ps, canon p.chars ≠ some q) → x.2.entry q = T.entry q

theorem Lawful.refused {ps : List PathArg} {x : Int × Tree} (h : x = (-1, T)) : T.Lawful ps x := by
  subst h
  exact ⟨Or.inl rfl, fun _ _ => rfl⟩

/-- Done by a change at the one path -/
theorem Lawful.done {p : PathArg} {x : Int × Tree} {T' : Tree} {e : Option (Slot × Node)}
    (h : x = (0, T')) (hp : canon p.chars = some c) (hT' : T'.entry = Function.update T.entry c e) :
    T.Lawful [p] x := by
  subst h
  refine ⟨Or.inr rfl, fun q hq => ?_⟩
  have hqc : q ≠ c := by
    rintro rfl
    exact hq p (by simp) hp
  rw [hT', Function.update_of_ne hqc]

theorem lawful_create (p : PathArg) (node : Node) : T.Lawful [p] (T.create p node) := by
  obtain ⟨h, -⟩ | ⟨c, k, T', hp, -, h, hT'⟩ := T.create_cases p node
  · exact .refused h
  · exact .done h hp hT'

theorem lawful_touch (p : PathArg) : T.Lawful [p] (T.touch p) := by
  unfold touch
  split
  · exact ⟨Or.inr rfl, fun _ _ => rfl⟩
  · exact lawful_create p _

theorem lawful_rmdir (p : PathArg) : T.Lawful [p] (T.rmdir p) := by
  obtain ⟨h, -⟩ | ⟨c, T', hp, -, h, hT'⟩ := T.rmdir_cases p
  · exact .refused h
  · exact .done h hp hT'

theorem lawful_remove (p : PathArg) : T.Lawful [p] (T.remove p) := by
  obtain ⟨h, -⟩ | ⟨c, i, b, T', hp, -, h, hT'⟩ := T.remove_cases p
  · exact .refused h
  · exact .done h hp hT'

theorem lawful_write (p : PathArg) (d : List UInt8) (append : Bool) :
    T.Lawful [p] (T.write p d append) := by
  obtain ⟨h, -⟩ | ⟨c, i, b, T', hp, -, h, hT'⟩ := T.write_cases p d append
  · exact .refused h
  · exact .done h hp hT'

/-- What a touch leaves, when it returns 0: the same tree, or a file at its path -/
theorem touch_done {p : PathArg} (h : (T.touch p).1 = 0) :
    (T.touch p).2 = T ∨ ∃ i b, (T.touch p).2.get p = some (i, .file b) := by
  unfold touch at h ⊢
  split
  · exact Or.inl rfl
  · rename_i habsent
    rw [if_neg habsent] at h
    obtain ⟨hrefused, -⟩ | ⟨c, k, T', hp, -, hdone, hT'⟩ := T.create_cases p (.file (.clip []))
    · rw [hrefused] at h
      cases h
    · refine Or.inr ⟨k, .clip [], ?_⟩
      rw [hdone, get, hp, Option.bind_some, hT', Function.update_self]

/-- Files stay files under a touch … -/
theorem file_of_touch (p : PathArg) {i : Slot} {b : FileBytes} (h : T.entry c = some (i, .file b)) :
    (T.touch p).2.entry c = some (i, .file b) := by
  unfold touch
  split
  · exact h
  · obtain ⟨hrefused, -⟩ | ⟨c', k, T', -, hmay, hdone, hT'⟩ := T.create_cases p (.file (.clip []))
    · rw [hrefused]
      exact h
    · have hne : c ≠ c' := by
        rintro rfl
        rw [hmay.absent] at h
        cases h
      rw [hdone, hT', Function.update_of_ne hne]
      exact h

/-- … and under a write. -/
theorem file_of_write (p : PathArg) (d : List UInt8) (append : Bool) {i : Slot} {b : FileBytes}
    (h : T.entry c = some (i, .file b)) :
    ∃ b', (T.write p d append).2.entry c = some (i, .file b') := by
  obtain ⟨hrefused, -⟩ | ⟨c', j, b', T', -, hfile, hdone, hT'⟩ := T.write_cases p d append
  · rw [hrefused]
    exact ⟨b, h⟩
  · rw [hdone, hT']
    by_cases hc : c = c'
    · subst hc
      obtain rfl : i = j := (Prod.mk.inj (Option.some.inj (h.symm.trans hfile))).1
      exact ⟨_, Function.update_self _ _ _⟩
    · exact ⟨b, by rw [Function.update_of_ne hc]; exact h⟩

/-- A copy that gives up has changed nothing: the write can only be refused at a directory, and a
touch of a directory does nothing. -/
theorem lawful_copy (src dst : PathArg) : T.Lawful [dst] (T.copy src dst) := by
  unfold copy
  split
  · exact .refused rfl
  · rename_i bytes hread
    have htouch := lawful_touch (T := T) dst
    split
    · rename_i hne
      rcases htouch.code with h | h
      · exact .refused (by rw [h])
      · exact absurd h hne
    · rename_i hrc
      rw [not_not] at hrc
      have hframe : ∀ q, (∀ p ∈ [dst], canon p.chars ≠ some q) →
          ((T.touch dst).2.write dst bytes false).2.entry q = T.entry q := fun q hq =>
        ((lawful_write dst bytes false).frame q hq).trans (htouch.frame q hq)
      split
      · rename_i hne
        obtain ⟨h, hnofile⟩ | ⟨_, _, _, _, -, -, h, -⟩ := (T.touch dst).2.write_cases dst bytes false
        · rcases touch_done hrc with hsame | ⟨i, b, hfile⟩
          · exact .refused (by rw [h, hsame])
          · exact absurd hfile (hnofile i b)
        · rw [h] at hne
          exact absurd rfl hne
      · exact ⟨Or.inr rfl, hframe⟩

theorem file_of_copy {src dst : PathArg} (h : (T.copy src dst).1 = 0) :
    ∃ i b, (T.copy src dst).2.get src = some (i, .file b) := by
  unfold copy at h ⊢
  split at h
  · cases h
  · rename_i bytes hread
    have hsrc : ∃ c i b, canon src.chars = some c ∧ T.entry c = some (i, .file b) := by
      unfold read at hread
      split at hread
      · rename_i i b hget
        obtain ⟨c, hc, hi⟩ := Option.bind_eq_some_iff.mp hget
        exact ⟨c, i, b, hc, hi⟩
      · cases hread
    obtain ⟨c, i, b, hc, hi⟩ := hsrc
    split at h
    · cases h
    · split at h
      · cases h
      · rename_i htouch hwrite
        obtain ⟨b', hb'⟩ := file_of_write dst bytes false (file_of_touch dst hi)
        refine ⟨i, b', ?_⟩
        rw [if_neg htouch, if_neg hwrite, get, hc, Option.bind_some]
        exact hb'

/-- The source of a copy that went through is there to be removed. -/
theorem lawful_move (src dst : PathArg) : T.Lawful [src, dst] (T.move src dst) := by
  have hcopy := lawful_copy (T := T) src dst
  unfold move
  split
  · rename_i hne
    rcases hcopy.code with h | h
    · exact .refused (by rw [h])
    · exact absurd h hne
  · rename_i hrc
    rw [not_not] at hrc
    obtain ⟨i, b, hfile⟩ := file_of_copy hrc
    obtain ⟨-, hnofile⟩ | ⟨_, _, _, _, -, -, h, -⟩ := (T.copy src dst).2.remove_cases src
    · exact absurd hfile (hnofile i b)
    · refine ⟨Or.inr (by rw [h]), fun q hq => ?_⟩
      have hremove := (lawful_remove (T := (T.copy src dst).2) src).frame q fun p hp => hq p (by simp_all)
      exact hremove.trans (hcopy.frame q fun p hp => hq p (by simp_all))

end Tree

/-- The paths a call may change -/
def Op.targets : Op → List PathArg
  | .mkdir p | .rmdir p | .touch p | .remove p | .write p _ _ => [p]
  | .copy _ dst => [dst]
  | .move src dst => [src, dst]
  | .read _ _ | .list _ _ | .stat _ => []

/-- **A call that returns -1 changes nothing, and no call changes an entry it does not name.** -/
theorem Tree.step_laws (T : Tree) (op : Op) :
    ((T.step op).1.rc = -1 → (T.step op).2 = T) ∧
      ∀ q, (∀ p ∈ op.targets, canon p.chars ≠ some q) → (T.step op).2.entry q = T.entry q := by
  have hcode : ∀ {x : Int × Tree} {ps : List PathArg}, T.Lawful ps x →
      (x.1 = -1 → x.2 = T) ∧ ∀ q, (∀ p ∈ ps, canon p.chars ≠ some q) → x.2.entry q = T.entry q := by
    intro x ps h
    refine ⟨fun hx => ?_, h.frame⟩
    rcases h.code with rfl | h0
    · rfl
    · rw [h0] at hx
      cases hx
  cases op with
  | mkdir p => exact hcode (lawful_create p _)
  | rmdir p => exact hcode (lawful_rmdir p)
  | touch p => exact hcode (lawful_touch p)
  | remove p => exact hcode (lawful_remove p)
  | write p d append => exact hcode (lawful_write p d append)
  | copy src dst => exact hcode (lawful_copy src dst)
  | move src dst => exact hcode (lawful_move src dst)
  | read p cap => exact ⟨fun _ => rfl, fun _ _ => rfl⟩
  | list p max => exact ⟨fun _ => rfl, fun _ _ => rfl⟩
  | stat p => exact ⟨fun _ => rfl, fun _ _ => rfl⟩

end MinOS.Vfs
