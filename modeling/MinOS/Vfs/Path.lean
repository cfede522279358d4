/-
# MinOS.Vfs.Path — `vfs_normalize` and what it computes.

A C string is the list of its characters before the NUL. `vfs_normalize` is given as the source has
it: the absolute branch scans components into a stack of at most 16 parts and writes them back joined
by `/`; the relative branch normalises `cwd`, appends the path and normalises again. The recursive
calls are unrolled (`vfs_normalize("/", ·)` is `vfsNormalizeRoot`, and a string that starts with `/`
goes straight to `normalizeAbsolute`). A store past index `VFS_PATH_MAX` of a path buffer is a
`Fault`: the source has no check there.

The reference is a fold: split at `/`, push each part. `normalizeRoot_eq` says that on paths of at
most `VFS_PATH_MAX` characters the code never faults and computes the fold, and
`canon_joinParts` that a canonical path is its own normal form.
-/
import Mathlib.Algebra.GroupWithZero.Nat
import Mathlib.Algebra.Order.BigOperators.Group.List
import Mathlib.Data.List.Induction
import Mathlib.Data.List.TakeWhile

namespace MinOS.Vfs

/-- `VFS_PATH_MAX` -/
def vfsPathMax : Nat := 127
/-- `VFS_NAME_MAX` -/
def vfsNameMax : Nat := 31

/-- The ways in which the C code can leave its arrays. -/
inductive Fault
  /-- `records[at]` with `at` outside `0..63` -/
  | recordIndex
  /-- a character of a record's name read at index 32 -/
  | nameIndex
  /-- a store past index `VFS_PATH_MAX` of a path buffer -/
  | pathIndex
  /-- `contents[n][i]` with `i` not below `VFS_CONTENT_MAX` -/
  | contentIndex
  deriving DecidableEq, Repr

/-- `'/'` -/
def slash : UInt8 := 47
/-- `'.'` -/
def dot : UInt8 := 46

/-! ## The code -/

/-- What the component loop does with one component: skip nothing and `.`, pop at `..`, push a name
that fits, fail otherwise. -/
def pushPart (parts : List (List UInt8)) (part : List UInt8) : Option (List (List UInt8)) :=
  if part = [] then some parts
  else if part = [dot] then some parts
  else if part = [dot, dot] then some parts.dropLast
  else if part.length ≤ vfsNameMax ∧ parts.length < 16 then some (parts ++ [part])
  else none

theorem length_skip_lt (c : UInt8) (cs : List UInt8) :
    (((c :: cs).dropWhile (· ≠ slash)).dropWhile (· = slash)).length < (c :: cs).length := by
  by_cases hc : c = slash
  · rw [List.dropWhile_cons_of_neg (by simp [hc]), List.dropWhile_cons_of_pos (by simp [hc])]
    exact Nat.lt_succ_of_le (List.dropWhile_suffix _).length_le
  · rw [List.dropWhile_cons_of_pos (by simp [hc])]
    have h₁ := (List.dropWhile_suffix (· = slash) (l := cs.dropWhile (· ≠ slash))).length_le
    have h₂ := (List.dropWhile_suffix (· ≠ slash) (l := cs)).length_le
    simp only [List.length_cons]
    omega

/-- `while (path[i]) { … }`: take a component, push it, skip the slashes after it. -/
def splitParts (rest : List UInt8) (parts : List (List UInt8)) : Option (List (List UInt8)) :=
  match rest with
  | [] => some parts
  | c :: cs =>
    match pushPart parts ((c :: cs).takeWhile (· ≠ slash)) with
    | none => none
    | some parts' =>
      splitParts (((c :: cs).dropWhile (· ≠ slash)).dropWhile (· = slash)) parts'
termination_by rest.length
decreasing_by exact length_skip_lt c cs

/-- Append one part to a path buffer, after a `/` unless the buffer holds only the root. -/
def joinPart (out part : List UInt8) : List UInt8 :=
  (if 1 < out.length then out ++ [slash] else out) ++ part

/-- The output loop of `vfs_normalize`. -/
def joinParts (parts : List (List UInt8)) : List UInt8 := parts.foldl joinPart [slash]

/-- `vfs_normalize` on a path that starts with `/`. -/
def normalizeAbsolute (path : List UInt8) : Except Fault (Option (List UInt8)) :=
  match splitParts path.tail [] with
  | none => .ok none
  | some parts =>
    if (joinParts parts).length ≤ vfsPathMax then .ok (some (joinParts parts))
    else .error .pathIndex

/-- The relative branch once `work` holds the normalised `cwd`; `slen` sums are 32-bit. -/
def normalizeRelative (work path : List UInt8) : Except Fault (Option (List UInt8)) :=
  if vfsPathMax < (work.length + 1 + path.length) % 2 ^ 32 then .ok none
  else
    let out := if 1 < work.length then work ++ [slash] else work
    let out := out ++ path.take (vfsPathMax - out.length)
    if out.length ≤ vfsPathMax then normalizeAbsolute out else .error .pathIndex

/-- `vfs_normalize("/", path, out)` -/
def vfsNormalizeRoot (path : List UInt8) : Except Fault (Option (List UInt8)) :=
  if path = [] then .ok none
  else if path.head? = some slash then normalizeAbsolute path
  else do
    match ← normalizeAbsolute [slash] with
    | none => .ok none
    | some work => normalizeRelative work path

/-- `vfs_normalize(cwd, path, out)`; `none` is -1. -/
def vfsNormalize (cwd path : List UInt8) : Except Fault (Option (List UInt8)) :=
  if path = [] then .ok none
  else if path.head? = some slash then normalizeAbsolute path
  else do
    match ← vfsNormalizeRoot cwd with
    | none => .ok none
    | some work => normalizeRelative work path

/-! ## The reference: a fold over the components -/

/-- Fold the `/`-separated components of a string, left to right. -/
def foldParts (path : List UInt8) (parts : List (List UInt8)) : Option (List (List UInt8)) :=
  (path.splitOn slash).foldlM pushPart parts

/-- The canonical form of a path taken from the root: its list of names. A relative path must leave
room for the `/` in front of it and one more. -/
def canon (path : List UInt8) : Option (List (List UInt8)) :=
  if path = [] then none
  else if path.head? = some slash then foldParts path []
  else if vfsPathMax < path.length + 2 then none
  else foldParts path []

/-- What a record's name can be. -/
structure GoodName (x : List UInt8) : Prop where
  ne_nil : x ≠ []
  length_le : x.length ≤ vfsNameMax
  slash_notMem : slash ∉ x
  nul_notMem : 0 ∉ x
  ne_dot : x ≠ [dot]
  ne_dotdot : x ≠ [dot, dot]

/-- A list of names that is the normal form of some path. -/
structure Canonical (p : List (List UInt8)) : Prop where
  good : ∀ x ∈ p, GoodName x
  depth_le : p.length ≤ 16
  length_le : (joinParts p).length ≤ vfsPathMax

/-- A path argument: a C string of at most `VFS_PATH_MAX` characters. -/
structure PathArg where
  chars : List UInt8
  nul_notMem : 0 ∉ chars
  length_le : chars.length ≤ vfsPathMax

/-! ## The component loop is the fold -/

theorem splitOn_eq_takeWhile_cons (r : List UInt8) :
    r.splitOn slash = r.takeWhile (· ≠ slash) ::
      (match r.dropWhile (· ≠ slash) with
        | [] => []
        | _ :: t => t.splitOn slash) := by
  induction r with
  | nil => rfl
  | cons c cs ih =>
    rw [List.splitOn_cons_eq_if_modifyHead]
    by_cases hc : c = slash
    · simp [hc]
    · rw [if_neg (by simpa using hc), ih, List.takeWhile_cons_of_pos (by simpa using hc),
        List.dropWhile_cons_of_pos (by simpa using hc), List.modifyHead_cons]

/-- Leading slashes contribute empty components only. -/
theorem foldParts_skip (r : List UInt8) (parts : List (List UInt8)) :
    foldParts (r.dropWhile (· = slash)) parts = foldParts r parts := by
  induction r with
  | nil => rfl
  | cons c cs ih =>
    by_cases hc : c = slash
    · rw [List.dropWhile_cons_of_pos (by simpa using hc), ih, foldParts, foldParts,
        List.splitOn_cons_eq_if_modifyHead, if_pos (by simpa using hc)]
      rfl
    · rw [List.dropWhile_cons_of_neg (by simpa using hc)]

theorem splitParts_eq_foldParts (rest : List UInt8) (parts : List (List UInt8)) :
    splitParts rest parts = foldParts rest parts := by
  fun_induction splitParts rest parts with
  | case1 parts => rfl
  | case2 parts c cs h =>
    rw [foldParts, splitOn_eq_takeWhile_cons, List.foldlM_cons, h]
    rfl
  | case3 parts c cs parts' h ih =>
    rw [ih, foldParts_skip, foldParts, foldParts, splitOn_eq_takeWhile_cons (c :: cs),
      List.foldlM_cons, h]
    -- what is left of the string is empty or starts with the slash that ended the component
    cases hd : (c :: cs).dropWhile (· ≠ slash) with
    | nil => rfl
    | cons e t =>
      have he : e = slash := by
        have := List.head?_dropWhile_not (· ≠ slash) (c :: cs)
        rw [hd] at this
        simpa using this
      rw [List.splitOn_cons_eq_if_modifyHead, if_pos (by simpa using he)]
      rfl

/-! ## What the fold keeps -/

theorem mem_of_mem_splitOn {r x : List UInt8} (h : x ∈ r.splitOn slash) {b : UInt8} (hb : b ∈ x) :
    b ∈ r ∧ b ≠ slash := by
  induction r generalizing x with
  | nil =>
    rw [List.splitOn_nil, List.mem_singleton] at h
    simp [h] at hb
  | cons c cs ih =>
    rw [List.splitOn_cons_eq_if_modifyHead] at h
    split at h
    · rcases List.mem_cons.mp h with rfl | h
      · simp at hb
      · exact ⟨List.mem_cons_of_mem c (ih h hb).1, (ih h hb).2⟩
    · rename_i hc
      obtain ⟨y, ys, hy⟩ := List.exists_cons_of_ne_nil (List.splitOn_ne_nil slash cs)
      rw [hy, List.modifyHead_cons] at h
      rcases List.mem_cons.mp h with rfl | h
      · rcases List.mem_cons.mp hb with rfl | hb
        · exact ⟨by simp, by simpa using hc⟩
        · have := ih (hy ▸ List.mem_cons_self) hb
          exact ⟨List.mem_cons_of_mem c this.1, this.2⟩
      · have := ih (hy ▸ List.mem_cons_of_mem y h) hb
        exact ⟨List.mem_cons_of_mem c this.1, this.2⟩

/-- The characters a list of names takes up, one separator each. -/
def weight (parts : List (List UInt8)) : Nat := (parts.map fun x => x.length + 1).sum

@[simp] theorem weight_nil : weight [] = 0 := rfl

@[simp] theorem weight_cons (x : List UInt8) (p : List (List UInt8)) :
    weight (x :: p) = x.length + 1 + weight p := by
  simp [weight]

@[simp] theorem weight_append (p q : List (List UInt8)) : weight (p ++ q) = weight p + weight q := by
  simp [weight]

theorem weight_splitOn (r : List UInt8) : weight (r.splitOn slash) = r.length + 1 := by
  induction r with
  | nil => simp
  | cons c cs ih =>
    rw [List.splitOn_cons_eq_if_modifyHead]
    obtain ⟨y, ys, hy⟩ := List.exists_cons_of_ne_nil (List.splitOn_ne_nil slash cs)
    rw [hy] at ih ⊢
    split
    · simp only [weight_cons, List.length_nil, List.length_cons] at ih ⊢
      omega
    · simp only [List.modifyHead_cons, weight_cons, List.length_cons] at ih ⊢
      omega

theorem weight_dropLast_le (p : List (List UInt8)) : weight p.dropLast ≤ weight p := by
  rcases List.eq_nil_or_concat' p with rfl | ⟨q, x, rfl⟩
  · rfl
  · simp

/-- One push: everything on the stack stays a good name, the stack stays within 16, and it grows by
no more than the component. -/
theorem pushPart_spec {parts parts' : List (List UInt8)} {part : List UInt8}
    (h : pushPart parts part = some parts') (hslash : slash ∉ part) (hnul : 0 ∉ part)
    (hgood : ∀ x ∈ parts, GoodName x) (hdepth : parts.length ≤ 16) :
    (∀ x ∈ parts', GoodName x) ∧ parts'.length ≤ 16 ∧
      weight parts' ≤ weight parts + (part.length + 1) := by
  unfold pushPart at h
  split at h
  · cases h; exact ⟨hgood, hdepth, by omega⟩
  split at h
  · cases h; exact ⟨hgood, hdepth, by omega⟩
  split at h
  · cases h
    refine ⟨fun x hx => hgood x (List.dropLast_subset parts hx), ?_, ?_⟩
    · rw [List.length_dropLast]; omega
    · have := weight_dropLast_le parts; omega
  split at h
  · rename_i hnil hdot hdotdot hfit
    cases h
    refine ⟨?_, ?_, by simp⟩
    · intro x hx
      rcases List.mem_append.mp hx with hx | hx
      · exact hgood x hx
      · rw [List.mem_singleton] at hx
        subst hx
        exact ⟨hnil, hfit.1, hslash, hnul, hdot, hdotdot⟩
    · simp only [List.length_append, List.length_singleton]
      omega
  · cases h

/-- The whole fold, from any stack of good names. -/
theorem foldlM_pushPart_spec (comps : List (List UInt8)) :
    ∀ {parts parts' : List (List UInt8)}, comps.foldlM pushPart parts = some parts' →
      (∀ x ∈ comps, slash ∉ x ∧ 0 ∉ x) → (∀ x ∈ parts, GoodName x) → parts.length ≤ 16 →
      (∀ x ∈ parts', GoodName x) ∧ parts'.length ≤ 16 ∧
        weight parts' ≤ weight parts + weight comps := by
  induction comps with
  | nil =>
    intro parts parts' h _ hgood hdepth
    cases h
    exact ⟨hgood, hdepth, by simp⟩
  | cons c cs ih =>
    intro parts parts' h hc hgood hdepth
    rw [List.foldlM_cons] at h
    obtain ⟨mid, hmid, h⟩ := Option.bind_eq_some_iff.mp h
    have hc0 := hc c List.mem_cons_self
    obtain ⟨hg, hd, hw⟩ := pushPart_spec hmid hc0.1 hc0.2 hgood hdepth
    obtain ⟨hg', hd', hw'⟩ := ih h (fun x hx => hc x (List.mem_cons_of_mem c hx)) hg hd
    refine ⟨hg', hd', ?_⟩
    rw [weight_cons]
    omega

theorem foldParts_spec {path : List UInt8} {parts : List (List UInt8)} (hnul : 0 ∉ path)
    (h : foldParts path [] = some parts) :
    (∀ x ∈ parts, GoodName x) ∧ parts.length ≤ 16 ∧ weight parts ≤ path.length + 1 := by
  have hcomps : ∀ x ∈ path.splitOn slash, slash ∉ x ∧ 0 ∉ x := by
    intro x hx
    exact ⟨fun hs => (mem_of_mem_splitOn hx hs).2 rfl, fun h0 => hnul (mem_of_mem_splitOn hx h0).1⟩
  have := foldlM_pushPart_spec _ h hcomps (by simp) (by simp)
  rwa [weight_splitOn, weight_nil, Nat.zero_add] at this

/-! ## Joining and splitting are inverse -/

theorem joinParts_concat (p : List (List UInt8)) (x : List UInt8) :
    joinParts (p ++ [x]) = joinPart (joinParts p) x := by
  simp [joinParts, List.foldl_append]

@[simp] theorem joinParts_nil : joinParts [] = [slash] := rfl

theorem length_joinParts {p : List (List UInt8)} (hp : ∀ x ∈ p, x ≠ []) :
    (joinParts p).length = max 1 (weight p) := by
  induction p using List.reverseRecOn with
  | nil => rfl
  | append_singleton p x ih =>
    have hx : x.length ≠ 0 := by simpa using hp x (by simp)
    have ihp := ih fun y hy => hp y (by simp [hy])
    rw [joinParts_concat, joinPart]
    rcases List.eq_nil_or_concat' p with rfl | ⟨q, y, rfl⟩
    · simp
    · have hy : y.length ≠ 0 := by simpa using hp y (by simp)
      simp only [weight_append, weight_cons, weight_nil] at ihp ⊢
      rw [if_pos (by omega)]
      simp only [List.length_append, List.length_singleton]
      omega

/-- From the second name on, joining is putting a slash in front of each. -/
theorem foldl_joinPart (xs : List (List UInt8)) : ∀ (out : List UInt8), 1 < out.length →
    xs.foldl joinPart out = out ++ xs.flatMap (slash :: ·) := by
  induction xs with
  | nil => intro out _; simp
  | cons x xs ih =>
    intro out hout
    have hj : joinPart out x = out ++ slash :: x := by simp [joinPart, hout]
    rw [List.foldl_cons, hj, ih _ (by simp; omega)]
    simp

theorem joinParts_cons {x : List UInt8} (hx : x ≠ []) (xs : List (List UInt8)) :
    joinParts (x :: xs) = slash :: (x ++ xs.flatMap (slash :: ·)) := by
  have hlen : 1 < (slash :: x).length := by
    have : x.length ≠ 0 := by simpa using hx
    simp only [List.length_cons]
    omega
  have hj : joinPart [slash] x = slash :: x := by simp [joinPart]
  rw [joinParts, List.foldl_cons, hj, foldl_joinPart xs _ hlen]
  rfl

theorem splitOn_joined (xs : List (List UInt8)) : ∀ (x : List UInt8), slash ∉ x →
    (∀ y ∈ xs, slash ∉ y) → (x ++ xs.flatMap (slash :: ·)).splitOn slash = x :: xs := by
  induction xs with
  | nil => intro x hx _; simpa using List.splitOn_eq_singleton hx
  | cons y ys ih =>
    intro x hx hys
    rw [List.flatMap_cons, List.cons_append,
      List.splitOn_append_cons_self_of_not_mem hx,
      ih y (hys y (by simp)) fun z hz => hys z (List.mem_cons_of_mem y hz)]

/-- **Joining loses nothing**: two lists of good names with one joined string are equal. -/
theorem joinParts_inj {p q : List (List UInt8)} (hp : ∀ x ∈ p, GoodName x)
    (hq : ∀ x ∈ q, GoodName x) (h : joinParts p = joinParts q) : p = q := by
  have key : ∀ {r : List (List UInt8)}, (∀ x ∈ r, GoodName x) →
      (joinParts r).tail.splitOn slash = if r = [] then [[]] else r := by
    intro r hr
    cases r with
    | nil => rfl
    | cons x xs =>
      rw [joinParts_cons (hr x (by simp)).ne_nil, List.tail_cons,
        splitOn_joined xs x (hr x (by simp)).slash_notMem
          fun y hy => (hr y (List.mem_cons_of_mem x hy)).slash_notMem]
      simp
  have hkey := (key hp).symm.trans ((congrArg (fun s => s.tail.splitOn slash) h).trans (key hq))
  -- a list of good names is never `[[]]`
  have hne : ∀ {r : List (List UInt8)}, (∀ x ∈ r, GoodName x) → r ≠ [[]] :=
    fun hr he => (hr [] (by simp [he])).ne_nil rfl
  split at hkey <;> split at hkey
  · rename_i h₁ h₂; rw [h₁, h₂]
  · exact absurd hkey.symm (hne hq)
  · exact absurd hkey (hne hp)
  · exact hkey

/-- Good names are pushed as they stand. -/
theorem foldlM_pushPart_good (p : List (List UInt8)) : ∀ (acc : List (List UInt8)),
    (∀ x ∈ p, GoodName x) → acc.length + p.length ≤ 16 → p.foldlM pushPart acc = some (acc ++ p) := by
  induction p with
  | nil => intro acc _ _; simp
  | cons x xs ih =>
    intro acc hp hlen
    simp only [List.length_cons] at hlen
    have hx := hp x (by simp)
    have hpush : pushPart acc x = some (acc ++ [x]) := by
      rw [pushPart, if_neg hx.ne_nil, if_neg hx.ne_dot, if_neg hx.ne_dotdot,
        if_pos ⟨hx.length_le, by omega⟩]
    rw [List.foldlM_cons, hpush]
    show xs.foldlM pushPart (acc ++ [x]) = _
    rw [ih _ (fun y hy => hp y (List.mem_cons_of_mem x hy)) (by simp; omega)]
    simp

theorem foldParts_joinParts {p : List (List UInt8)} (h : Canonical p) :
    foldParts (joinParts p).tail [] = some p := by
  cases p with
  | nil => rfl
  | cons x xs =>
    have hx := h.good x (by simp)
    rw [joinParts_cons hx.ne_nil, List.tail_cons, foldParts,
      splitOn_joined xs x hx.slash_notMem
        fun y hy => (h.good y (List.mem_cons_of_mem x hy)).slash_notMem,
      foldlM_pushPart_good _ [] h.good (by simpa using h.depth_le)]
    rfl

/-! ## The code computes the fold -/

theorem head?_joinParts (p : List (List UInt8)) : (joinParts p).head? = some slash := by
  induction p using List.reverseRecOn with
  | nil => rfl
  | append_singleton p x ih =>
    rw [joinParts_concat, joinPart]
    split <;> simp [ih]

theorem joinParts_ne_nil (p : List (List UInt8)) : joinParts p ≠ [] := by
  intro h
  have := head?_joinParts p
  rw [h] at this
  simp at this

theorem joinParts_eq_root_iff {p : List (List UInt8)} (hp : ∀ x ∈ p, GoodName x) :
    joinParts p = [slash] ↔ p = [] :=
  ⟨fun h => joinParts_inj hp (by simp) (h.trans joinParts_nil.symm), fun h => by rw [h]; rfl⟩

/-- Folding an absolute path may start after its slash. -/
theorem foldParts_cons_slash (r : List UInt8) (parts : List (List UInt8)) :
    foldParts (slash :: r) parts = foldParts r parts := by
  rw [← foldParts_skip (slash :: r), List.dropWhile_cons_of_pos (by simp), foldParts_skip]

/-- A fold over at most `VFS_PATH_MAX` characters gives a canonical path. -/
theorem canonical_of_foldParts {r : List UInt8} {parts : List (List UInt8)} (hnul : 0 ∉ r)
    (hlen : r.length + 1 ≤ vfsPathMax) (h : foldParts r [] = some parts) : Canonical parts := by
  obtain ⟨hgood, hdepth, hweight⟩ := foldParts_spec hnul h
  refine ⟨hgood, hdepth, ?_⟩
  rw [length_joinParts fun x hx => (hgood x hx).ne_nil]
  simp only [vfsPathMax] at hlen ⊢
  omega

theorem normalizeAbsolute_eq {r : List UInt8} (hnul : 0 ∉ r) (hlen : r.length + 1 ≤ vfsPathMax) :
    normalizeAbsolute (slash :: r) = .ok ((foldParts (slash :: r) []).map joinParts) := by
  rw [normalizeAbsolute, List.tail_cons, splitParts_eq_foldParts, foldParts_cons_slash]
  cases h : foldParts r [] with
  | none => rfl
  | some parts =>
    simp only [Option.map_some]
    rw [if_pos (canonical_of_foldParts hnul hlen h).length_le]

/-- The relative branch under `cwd = "/"` puts a slash in front. -/
theorem normalizeRelative_root {path : List UInt8} (hnul : 0 ∉ path)
    (hlen : path.length ≤ vfsPathMax) :
    normalizeRelative [slash] path
      = .ok ((if vfsPathMax < path.length + 2 then none else foldParts path []).map joinParts) := by
  have hmod : (1 + 1 + path.length) % 2 ^ 32 = path.length + 2 := by
    simp only [vfsPathMax] at hlen
    omega
  simp only [normalizeRelative, List.length_singleton, hmod, Nat.lt_irrefl, if_false]
  by_cases hlong : vfsPathMax < path.length + 2
  · rw [if_pos hlong, if_pos hlong]
    rfl
  · have hshort : path.length + 2 ≤ vfsPathMax := Nat.le_of_not_lt hlong
    rw [if_neg hlong, if_neg hlong, List.take_of_length_le (by omega), List.singleton_append,
      if_pos (by simp only [List.length_cons]; omega), normalizeAbsolute_eq hnul (by omega),
      foldParts_cons_slash]

/-- **`vfs_normalize("/", path)` is the fold**, for every path of at most `VFS_PATH_MAX` characters:
it never faults, and returns the joined fold or -1. -/
theorem normalizeRoot_eq (p : PathArg) :
    vfsNormalizeRoot p.chars = .ok ((canon p.chars).map joinParts) := by
  obtain ⟨path, hnul, hlen⟩ := p
  simp only [vfsNormalizeRoot, canon]
  cases path with
  | nil => rfl
  | cons c cs =>
    have hcs : 0 ∉ cs := fun h => hnul (List.mem_cons_of_mem c h)
    rw [if_neg (List.cons_ne_nil c cs), if_neg (List.cons_ne_nil c cs)]
    by_cases hc : (c :: cs).head? = some slash
    · obtain rfl : c = slash := by simpa using hc
      rw [if_pos hc, if_pos hc, normalizeAbsolute_eq hcs hlen]
    · rw [if_neg hc, if_neg hc,
        show normalizeAbsolute [slash] = .ok (some [slash]) from
          normalizeAbsolute_eq (r := []) (by simp) (by decide)]
      exact normalizeRelative_root hnul hlen

/-- Whatever the code accepts is canonical. -/
theorem canonical_of_canon {p : PathArg} {parts : List (List UInt8)}
    (h : canon p.chars = some parts) : Canonical parts := by
  obtain ⟨path, hnul, hlen⟩ := p
  simp only [canon] at h
  cases path with
  | nil => simp at h
  | cons c cs =>
    have hcs : 0 ∉ cs := fun h => hnul (List.mem_cons_of_mem c h)
    simp only [List.length_cons] at hlen
    rw [if_neg (by simp)] at h
    split at h
    · rename_i hc
      obtain rfl : c = slash := by simpa using hc
      rw [foldParts_cons_slash] at h
      exact canonical_of_foldParts hcs hlen h
    · split at h
      · cases h
      · refine canonical_of_foldParts hnul ?_ h
        simp only [List.length_cons] at *
        omega

/-- A canonical path as a path argument. -/
def Canonical.arg {p : List (List UInt8)} (h : Canonical p) : PathArg where
  chars := joinParts p
  nul_notMem := by
    cases p with
    | nil => decide
    | cons x xs =>
      rw [joinParts_cons (h.good x (by simp)).ne_nil]
      intro h0
      simp only [List.mem_cons, List.mem_append, List.mem_flatMap] at h0
      rcases h0 with h0 | h0 | ⟨y, hy, h0 | h0⟩
      · exact absurd h0 (by decide)
      · exact (h.good x (by simp)).nul_notMem h0
      · exact absurd h0 (by decide)
      · exact (h.good y (List.mem_cons_of_mem x hy)).nul_notMem h0
  length_le := h.length_le

/-- **A canonical path is its own normal form.** -/
theorem canon_joinParts {p : List (List UInt8)} (h : Canonical p) : canon (joinParts p) = some p := by
  have hcons : joinParts p = slash :: (joinParts p).tail := by
    have hhead := head?_joinParts p
    cases hj : joinParts p with
    | nil => exact absurd hj (joinParts_ne_nil p)
    | cons c cs =>
      rw [hj] at hhead
      simpa using hhead
  rw [canon, if_neg (joinParts_ne_nil p), if_pos (head?_joinParts p), hcons, foldParts_cons_slash,
    foldParts_joinParts h]

end MinOS.Vfs
