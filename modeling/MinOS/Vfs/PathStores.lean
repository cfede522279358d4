/-
# MinOS.Vfs.PathStores — the buffers `vfs_normalize` writes to.

Every caller passes an `out` of `VFS_PATH_MAX + 1` bytes, and `work` is as long. The model of `MinOS.Vfs.Path`
stops at a store past the end; here the indices of all stores are listed, for strings of any length, and the
result says for which strings they stay inside. The relative branch checks a sum of lengths, the absolute one
checks nothing: 16 names of 31 characters are let through.
-/
import MinOS.Vfs.Normalize

namespace MinOS.Vfs

/-- A C string -/
structure CString where
  chars : List UInt8
  nul_notMem : 0 ∉ chars

/-! ## Stores -/

/-- The 32-bit index comes round to 0 before it meets the NUL of such a string: `slen` and the component loop
never see its end. The loop leaves it only by refusing a component. -/
def Endless (s : List UInt8) : Prop := 2 ^ 32 ≤ s.length

instance (s : List UInt8) : Decidable (Endless s) := inferInstanceAs (Decidable (_ ≤ _))

/-- The indices of `out` that are stored to for a path that starts with `/`: `out[0] = 0`, then the joined
stack and its NUL -/
def storesAbsolute (path : List UInt8) : List Nat :=
  0 :: if Endless path then []
    else
      match splitParts path.tail [] with
      | none => []
      | some parts => List.range ((joinParts parts).length + 1)

/-- The indices of `out` and `work` in the relative branch, once `work` holds the normalised `cwd`: the two
joined in `out`, the second call on that, and the copy back -/
def storesRelative (work path : List UInt8) : List Nat :=
  if Endless path then []
  else if vfsPathMax < (work.length + 1 + path.length) % 2 ^ 32 then []
  else
    let out := if 1 < work.length then work ++ [slash] else work
    let out := out ++ path.take (vfsPathMax - out.length)
    List.range (out.length + 1) ++ (storesAbsolute out ++
      match normalizeAbsolute out with
      | .ok (some result) => List.range (min result.length vfsPathMax + 1)
      | _ => [])

/-- The stores of `vfs_normalize("/", path, out)`, those of its recursive calls with them -/
def storesRoot (path : List UInt8) : List Nat :=
  if path = [] then []
  else if path.head? = some slash then storesAbsolute path
  else 0 :: (storesAbsolute [slash] ++ storesRelative [slash] path)

/-- The indices of `out` and of `work` that `vfs_normalize(cwd, path, out)` stores to. The second part of the
relative branch is reached if the first returned 0. -/
def stores (cwd path : List UInt8) : List Nat :=
  if path = [] then []
  else if path.head? = some slash then storesAbsolute path
  else 0 :: (storesRoot cwd ++
    if Endless cwd then []
    else
      match vfsNormalizeRoot cwd with
      | .ok (some work) => storesRelative work path
      | _ => [])

/-- No store past the end, and no output that is too long -/
def InBounds (cwd path : List UInt8) : Prop :=
  (∀ k ∈ stores cwd path, k ≤ vfsPathMax) ∧
    ∀ out, vfsNormalize cwd path = .ok (some out) → out.length ≤ vfsPathMax

/-- The names that a path leaves on the stack fit with their slashes, or it never gets to the output. -/
def Fits (path : List UInt8) : Prop :=
  Endless path ∨ Refuses (path.splitOn slash) ∨ weight (stackOf (path.splitOn slash)) ≤ vfsPathMax

/-- The text whose components make the working directory: 126 characters of a relative one, behind a `/` -/
def rootText (cwd : List UInt8) : List UInt8 :=
  if cwd.head? = some slash then cwd else slash :: cwd.take (vfsPathMax - 1)

/-- The working directory normalises to a path of exactly `VFS_PATH_MAX` characters. The sum of lengths that
a relative one has to pass is 32-bit. -/
structure Full (cwd : List UInt8) : Prop where
  ne_nil : cwd ≠ []
  ends : ¬ Endless cwd
  passes : cwd.head? = some slash ∨ (2 + cwd.length) % 2 ^ 32 ≤ vfsPathMax
  accepted : ¬ Refuses ((rootText cwd).splitOn slash)
  weight_eq : weight (stackOf ((rootText cwd).splitOn slash)) = vfsPathMax

/-- The length of the path is so close to 2^32 that the sum with a full working directory comes round. -/
def Wraps (path : List UInt8) : Prop := 2 ^ 32 ≤ path.length + 128 ∧ ¬ Endless path

/-- When `vfs_normalize` stays in its buffers -/
def Safe (cwd path : List UInt8) : Prop :=
  path = [] ∨ (path.head? = some slash ∧ Fits path) ∨
    (path ≠ [] ∧ path.head? ≠ some slash ∧ (cwd.head? = some slash → Fits cwd) ∧ ¬ (Full cwd ∧ Wraps path))

/-- Only names are pushed. -/
theorem ne_nil_of_mem_stackOf (comps : List (List UInt8)) : ∀ x ∈ stackOf comps, x ≠ [] := by
  have hfold : ∀ stack : List (List UInt8), (∀ x ∈ stack, x ≠ []) → ∀ x ∈ comps.foldl effect stack, x ≠ [] := by
    induction comps with
    | nil => exact fun _ h => h
    | cons c cs ih =>
      intro stack hstack
      apply ih
      unfold effect
      split
      · exact hstack
      split
      · exact fun x hx => hstack x (List.dropLast_subset stack hx)
      · rename_i hskip _
        intro x hx
        rcases List.mem_append.mp hx with hx | hx
        · exact hstack x hx
        · rw [List.mem_singleton.mp hx]
          exact fun hnil => hskip (Or.inl hnil)
  exact hfold [] fun x hx => absurd hx List.not_mem_nil

theorem length_joinParts_stackOf (comps : List (List UInt8)) :
    (joinParts (stackOf comps)).length = max 1 (weight (stackOf comps)) :=
  length_joinParts (ne_nil_of_mem_stackOf comps)

/-- The component loop on an absolute path -/
theorem splitParts_tail {path : List UInt8} (habs : path.head? = some slash) :
    splitParts path.tail [] = (path.splitOn slash).foldlM pushPart [] := by
  cases path with
  | nil => exact absurd habs (by simp)
  | cons c r =>
    obtain rfl : c = slash := Option.some.inj habs
    rw [List.tail_cons, splitParts_eq_foldParts, ← foldParts_cons_slash]
    rfl

theorem forall_mem_range_le {n m : Nat} : (∀ k ∈ List.range (n + 1), k ≤ m) ↔ n ≤ m := by
  constructor
  · intro h
    exact h n (List.mem_range.mpr (Nat.lt_succ_self n))
  · intro h k hk
    have := List.mem_range.mp hk
    omega

/-- The absolute branch stays in the buffer exactly when the names fit. -/
theorem storesAbsolute_le_iff {path : List UInt8} (habs : path.head? = some slash) :
    (∀ k ∈ storesAbsolute path, k ≤ vfsPathMax) ↔ Fits path := by
  unfold storesAbsolute Fits
  rw [List.forall_mem_cons, and_iff_right (Nat.zero_le _)]
  by_cases hend : Endless path
  · rw [if_pos hend]
    exact ⟨fun _ => Or.inl hend, fun _ k hk => absurd hk List.not_mem_nil⟩
  rw [if_neg hend, or_iff_right hend, splitParts_tail habs]
  by_cases hr : Refuses (path.splitOn slash)
  · rw [foldlM_pushPart_of_refuses hr]
    exact ⟨fun _ => Or.inl hr, fun _ k hk => absurd hk List.not_mem_nil⟩
  · rw [foldlM_pushPart_of_not_refuses hr, or_iff_right hr]
    dsimp only
    rw [forall_mem_range_le, length_joinParts_stackOf]
    unfold vfsPathMax
    omega

theorem head?_rootText (cwd : List UInt8) : (rootText cwd).head? = some slash := by
  unfold rootText
  split
  · assumption
  · rfl

/-- The root-relative form is the absolute branch on the text, once the length has passed. -/
theorem vfsNormalizeRoot_eq_rootText {cwd : List UInt8} (hne : cwd ≠ []) :
    vfsNormalizeRoot cwd = if cwd.head? = some slash ∨ (2 + cwd.length) % 2 ^ 32 ≤ vfsPathMax then
      normalizeAbsolute (rootText cwd) else .ok none := by
  have hroot : normalizeAbsolute [slash] = .ok (some [slash]) :=
    normalizeAbsolute_eq (r := []) (by simp) (by decide)
  rw [vfsNormalizeRoot, if_neg hne, rootText]
  by_cases habs : cwd.head? = some slash
  · rw [if_pos habs, if_pos (Or.inl habs), if_pos habs]
  · rw [if_neg habs, hroot]
    change normalizeRelative [slash] cwd = _
    rw [normalizeRelative, if_neg habs]
    by_cases hlong : vfsPathMax < ([slash].length + 1 + cwd.length) % 2 ^ 32
    · have hlong' : ¬ (2 + cwd.length) % 2 ^ 32 ≤ vfsPathMax := Nat.not_le.mpr hlong
      rw [if_pos hlong, if_neg fun h => h.elim habs hlong']
    · have hshort : (2 + cwd.length) % 2 ^ 32 ≤ vfsPathMax := Nat.not_lt.mp hlong
      rw [if_neg hlong, if_pos (Or.inr hshort)]
      have hout : ([slash] ++ cwd.take (vfsPathMax - [slash].length)).length ≤ vfsPathMax := by
        rw [List.length_append, List.length_take]
        unfold vfsPathMax
        rw [List.length_singleton]
        omega
      exact if_pos hout

theorem of_normalizeAbsolute {path out : List UInt8} (h : normalizeAbsolute path = .ok (some out)) :
    out ≠ [] ∧ out.length ≤ vfsPathMax := by
  unfold normalizeAbsolute at h
  split at h
  · cases h
  split at h
  · rename_i parts _ hle
    obtain rfl := Option.some.inj (Except.ok.inj h)
    exact ⟨joinParts_ne_nil parts, hle⟩
  · cases h

theorem of_normalizeRelative {work path out : List UInt8} (h : normalizeRelative work path = .ok (some out)) :
    out ≠ [] ∧ out.length ≤ vfsPathMax := by
  unfold normalizeRelative at h
  split at h
  · cases h
  generalize (if 1 < work.length then work ++ [slash] else work) = start at h
  dsimp only at h
  split at h
  · exact of_normalizeAbsolute h
  · cases h

/-- An output is never empty, and never too long: what is too long has been stored past the end already. -/
theorem of_vfsNormalize {cwd path out : List UInt8} (h : vfsNormalize cwd path = .ok (some out)) :
    out ≠ [] ∧ out.length ≤ vfsPathMax := by
  unfold vfsNormalize at h
  split at h
  · cases h
  split at h
  · exact of_normalizeAbsolute h
  · cases hcwd : vfsNormalizeRoot cwd with
    | error e =>
      rw [hcwd] at h
      cases h
    | ok work =>
      rw [hcwd] at h
      cases work with
      | none => cases h
      | some work => exact of_normalizeRelative h

/-- A text of at most `VFS_PATH_MAX` characters fits. -/
theorem fits_of_length_le {text : List UInt8} (habs : text.head? = some slash) (hnul : 0 ∉ text)
    (hlen : text.length ≤ vfsPathMax) : Fits text := by
  by_cases hr : Refuses (text.splitOn slash)
  · exact Or.inr (Or.inl hr)
  · have hfold : foldParts text [] = some (stackOf (text.splitOn slash)) := foldlM_pushPart_of_not_refuses hr
    cases text with
    | nil => exact absurd habs (by simp)
    | cons c r =>
      obtain rfl : c = slash := Option.some.inj habs
      have hcanonical := canonical_of_foldParts (fun h0 => hnul (List.mem_cons_of_mem _ h0)) hlen
        (foldParts_cons_slash r [] ▸ hfold)
      have hle := hcanonical.length_le
      rw [length_joinParts_stackOf] at hle
      exact Or.inr (Or.inr (by omega))

/-- A text in a path buffer that begins with a slash -/
structure Rooted (out : List UInt8) : Prop where
  head : out.head? = some slash
  nul_notMem : 0 ∉ out
  length_le : out.length ≤ vfsPathMax

theorem Rooted.ne_nil {out : List UInt8} (h : Rooted out) : out ≠ [] := by
  rintro rfl
  exact absurd h.head (by simp)

/-- There is room for a slash behind one that does not fill its buffer. -/
theorem Rooted.slashed {work : List UInt8} (h : Rooted work) (hroom : work.length ≠ vfsPathMax) :
    Rooted (if 1 < work.length then work ++ [slash] else work) := by
  split
  · refine ⟨?_, ?_, ?_⟩
    · rw [List.head?_append_of_ne_nil _ h.ne_nil, h.head]
    · simp [h.nul_notMem, slash]
    · have := h.length_le
      rw [List.length_append, List.length_singleton]
      omega
  · exact h

/-- The copy of a path behind it is cut where the buffer ends. -/
theorem Rooted.joined {out path : List UInt8} (h : Rooted out) (hnul : 0 ∉ path) :
    Rooted (out ++ path.take (vfsPathMax - out.length)) := by
  refine ⟨?_, ?_, ?_⟩
  · rw [List.head?_append_of_ne_nil _ h.ne_nil, h.head]
  · intro hmem
    rcases List.mem_append.mp hmem with hmem | hmem
    · exact h.nul_notMem hmem
    · exact hnul (List.mem_of_mem_take hmem)
  · have := h.length_le
    rw [List.length_append, List.length_take]
    omega

/-- The relative branch stays in the buffers unless the sum of the lengths comes round. -/
theorem storesRelative_le_iff {work path : List UInt8} (hhead : work.head? = some slash) (hwork : 0 ∉ work)
    (hlen : work.length ≤ vfsPathMax) (hne : path ≠ []) (hnul : 0 ∉ path) :
    (∀ k ∈ storesRelative work path, k ≤ vfsPathMax) ↔ ¬ (work.length = vfsPathMax ∧ Wraps path) := by
  have hpos := List.length_pos_of_ne_nil hne
  have hnone : ∀ k ∈ ([] : List Nat), k ≤ vfsPathMax := fun k hk => absurd hk List.not_mem_nil
  unfold storesRelative Wraps
  by_cases hend : Endless path
  · rw [if_pos hend]
    exact iff_of_true hnone fun h => h.2.2 hend
  rw [if_neg hend]
  have hshort : path.length < 2 ^ 32 := Nat.not_le.mp hend
  by_cases hlong : vfsPathMax < (work.length + 1 + path.length) % 2 ^ 32
  · rw [if_pos hlong]
    refine iff_of_true hnone ?_
    rintro ⟨hfull, hwraps, -⟩
    unfold vfsPathMax at hlong hfull
    omega
  rw [if_neg hlong]
  by_cases hfull : work.length = vfsPathMax
  · -- the sum came round, and the NUL goes one past the end
    have hwraps : 2 ^ 32 ≤ path.length + 128 := by
      unfold vfsPathMax at hlong hfull
      omega
    refine iff_of_false ?_ (not_not_intro ⟨hfull, hwraps, hend⟩)
    intro h
    have hbig : 1 < work.length := by
      rw [hfull]
      decide
    rw [if_pos hbig] at h
    have hlast := forall_mem_range_le.mp fun k hk => h k (List.mem_append_left _ hk)
    rw [List.length_append, List.length_append, List.length_singleton] at hlast
    omega
  · refine iff_of_true ?_ fun h => hfull h.1
    have hout := (Rooted.mk hhead hwork hlen).slashed hfull
    generalize (if 1 < work.length then work ++ [slash] else work) = out at *
    have hjoined := hout.joined hnul
    dsimp only
    intro k hk
    rcases List.mem_append.mp hk with hk | hk
    · exact forall_mem_range_le.mpr hjoined.length_le k hk
    rcases List.mem_append.mp hk with hk | hk
    · have hfits := fits_of_length_le hjoined.head hjoined.nul_notMem hjoined.length_le
      exact (storesAbsolute_le_iff hjoined.head).mpr hfits k hk
    · split at hk
      · exact forall_mem_range_le.mpr (Nat.min_le_right _ _) k hk
      · exact hnone k hk

/-- The first call of the relative branch stays in its buffers if an absolute `cwd` fits. -/
theorem storesRoot_le_iff {cwd : List UInt8} (hnul : 0 ∉ cwd) :
    (∀ k ∈ storesRoot cwd, k ≤ vfsPathMax) ↔ (cwd.head? = some slash → Fits cwd) := by
  unfold storesRoot
  by_cases hnil : cwd = []
  · rw [if_pos hnil, hnil]
    exact iff_of_true (fun k hk => absurd hk List.not_mem_nil) fun h => absurd h (by simp)
  rw [if_neg hnil]
  by_cases habs : cwd.head? = some slash
  · rw [if_pos habs, storesAbsolute_le_iff habs]
    exact ⟨fun h _ => h, fun h => h habs⟩
  rw [if_neg habs]
  refine iff_of_true ?_ fun h => absurd h habs
  have hroot : ∀ k ∈ storesAbsolute [slash], k ≤ vfsPathMax :=
    (storesAbsolute_le_iff rfl).mpr (fits_of_length_le rfl (by decide) (by decide))
  have hrest : ∀ k ∈ storesRelative [slash] cwd, k ≤ vfsPathMax :=
    (storesRelative_le_iff rfl (by decide) (by decide) hnil hnul).mpr fun h => absurd h.1 (by decide)
  intro k hk
  rcases List.mem_cons.mp hk with rfl | hk
  · exact Nat.zero_le _
  · exact (List.mem_append.mp hk).elim (hroot k) (hrest k)

/-- The names of a working directory that is not too long fit. -/
theorem weight_rootText_le {cwd : List UInt8} (hnul : 0 ∉ cwd) (hend : ¬ Endless cwd)
    (hfits : cwd.head? = some slash → Fits cwd) (hr : ¬ Refuses ((rootText cwd).splitOn slash)) :
    weight (stackOf ((rootText cwd).splitOn slash)) ≤ vfsPathMax := by
  unfold rootText at hr ⊢
  split at hr
  · rename_i habs
    rw [if_pos habs]
    exact ((hfits habs).resolve_left hend).resolve_left hr
  · rename_i hrel
    rw [if_neg hrel]
    have hlen : (slash :: cwd.take (vfsPathMax - 1)).length ≤ vfsPathMax := by
      rw [List.length_cons, List.length_take]
      unfold vfsPathMax
      omega
    have hnul' : 0 ∉ slash :: cwd.take (vfsPathMax - 1) := by
      intro h
      rcases List.mem_cons.mp h with h | h
      · exact absurd h (by decide)
      · exact hnul (List.mem_of_mem_take h)
    have hshort : ¬ Endless (slash :: cwd.take (vfsPathMax - 1)) := by
      unfold Endless
      unfold vfsPathMax at hlen ⊢
      omega
    exact ((fits_of_length_le rfl hnul' hlen).resolve_left hshort).resolve_left hr

theorem nul_notMem_rootText {cwd : List UInt8} (hnul : 0 ∉ cwd) : 0 ∉ rootText cwd := by
  unfold rootText
  split
  · exact hnul
  · intro h
    rcases List.mem_cons.mp h with h | h
    · exact absurd h (by decide)
    · exact hnul (List.mem_of_mem_take h)

/-- The rest of the relative branch, after a first call that stayed in its buffers -/
theorem storesAfter_le_iff {cwd path : List UInt8} (hcwd : 0 ∉ cwd)
    (hfits : cwd.head? = some slash → Fits cwd) (hne : path ≠ []) (hnul : 0 ∉ path) :
    (∀ k ∈ (if Endless cwd then []
        else
          match vfsNormalizeRoot cwd with
          | .ok (some work) => storesRelative work path
          | _ => []), k ≤ vfsPathMax) ↔ ¬ (Full cwd ∧ Wraps path) := by
  have hnone : ∀ k ∈ ([] : List Nat), k ≤ vfsPathMax := fun k hk => absurd hk List.not_mem_nil
  by_cases hend : Endless cwd
  · rw [if_pos hend]
    exact iff_of_true hnone fun h => h.1.ends hend
  rw [if_neg hend]
  by_cases hnil : cwd = []
  · rw [hnil]
    exact iff_of_true hnone fun h => h.1.ne_nil rfl
  rw [vfsNormalizeRoot_eq_rootText hnil]
  by_cases hpasses : cwd.head? = some slash ∨ (2 + cwd.length) % 2 ^ 32 ≤ vfsPathMax
  swap
  · rw [if_neg hpasses]
    exact iff_of_true hnone fun h => hpasses h.1.passes
  rw [if_pos hpasses, normalizeAbsolute, splitParts_tail (head?_rootText cwd)]
  by_cases hr : Refuses ((rootText cwd).splitOn slash)
  · rw [foldlM_pushPart_of_refuses hr]
    exact iff_of_true hnone fun h => h.1.accepted hr
  have hweight := weight_rootText_le hcwd hend hfits hr
  have hlength := length_joinParts_stackOf ((rootText cwd).splitOn slash)
  have hle : (joinParts (stackOf ((rootText cwd).splitOn slash))).length ≤ vfsPathMax := by
    rw [hlength]
    exact max_le (by decide) hweight
  have hfold := foldlM_pushPart_of_not_refuses hr
  obtain ⟨hgood, hdepth, -⟩ := foldParts_spec (nul_notMem_rootText hcwd) hfold
  have hcanonical : Canonical (stackOf ((rootText cwd).splitOn slash)) := ⟨hgood, hdepth, hle⟩
  rw [hfold]
  dsimp only
  rw [if_pos hle]
  dsimp only
  rw [storesRelative_le_iff (head?_joinParts _) hcanonical.arg.nul_notMem hle hne hnul]
  have hfull : (joinParts (stackOf ((rootText cwd).splitOn slash))).length = vfsPathMax ↔ Full cwd := by
    rw [hlength]
    constructor
    · intro h
      refine ⟨hnil, hend, hpasses, hr, ?_⟩
      unfold vfsPathMax at h ⊢
      omega
    · intro h
      rw [h.weight_eq]
      rfl
  rw [hfull]

/-- Only the stores matter: an output is never too long. -/
theorem inBounds_iff_stores (cwd path : List UInt8) :
    InBounds cwd path ↔ ∀ k ∈ stores cwd path, k ≤ vfsPathMax :=
  and_iff_left fun _ h => (of_vfsNormalize h).2

theorem stores_le_iff {cwd path : List UInt8} (hcwd : 0 ∉ cwd) (hnul : 0 ∉ path) :
    (∀ k ∈ stores cwd path, k ≤ vfsPathMax) ↔ Safe cwd path := by
  unfold stores Safe
  by_cases hnil : path = []
  · rw [if_pos hnil]
    exact iff_of_true (fun k hk => absurd hk List.not_mem_nil) (Or.inl hnil)
  rw [if_neg hnil, or_iff_right hnil]
  by_cases habs : path.head? = some slash
  · rw [if_pos habs, storesAbsolute_le_iff habs]
    constructor
    · exact fun h => Or.inl ⟨habs, h⟩
    · rintro (h | h)
      · exact h.2
      · exact absurd habs h.2.1
  rw [if_neg habs]
  constructor
  · intro h
    have hfirst : cwd.head? = some slash → Fits cwd :=
      (storesRoot_le_iff hcwd).mp fun k hk => h k (List.mem_cons_of_mem _ (List.mem_append_left _ hk))
    refine Or.inr ⟨hnil, habs, hfirst, ?_⟩
    exact (storesAfter_le_iff hcwd hfirst hnil hnul).mp
      fun k hk => h k (List.mem_cons_of_mem _ (List.mem_append_right _ hk))
  · rintro (h | ⟨-, -, hfirst, hrest⟩)
    · exact absurd h.1 habs
    · intro k hk
      rcases List.mem_cons.mp hk with rfl | hk
      · exact Nat.zero_le _
      · exact (List.mem_append.mp hk).elim ((storesRoot_le_iff hcwd).mpr hfirst k)
          ((storesAfter_le_iff hcwd hfirst hnil hnul).mpr hrest k)

/-- **`vfs_normalize` stays in its buffers exactly when** the names of the absolute path it is given (or of an
absolute working directory, for a relative path) fit with their slashes, and no sum of lengths comes round. -/
theorem inBounds_iff (cwd path : CString) : InBounds cwd.chars path.chars ↔ Safe cwd.chars path.chars := by
  rw [inBounds_iff_stores]
  exact stores_le_iff cwd.nul_notMem path.nul_notMem

/-- Strings from buffers of `VFS_PATH_MAX + 1` bytes are safe. -/
theorem inBounds_of_pathArg (cwd path : PathArg) : InBounds cwd.chars path.chars := by
  have hpath := path.length_le
  rw [inBounds_iff_stores]
  apply (stores_le_iff cwd.nul_notMem path.nul_notMem).mpr
  by_cases hnil : path.chars = []
  · exact Or.inl hnil
  by_cases habs : path.chars.head? = some slash
  · exact Or.inr (Or.inl ⟨habs, fits_of_length_le habs path.nul_notMem hpath⟩)
  · refine Or.inr (Or.inr ⟨hnil, habs, fun h => fits_of_length_le h cwd.nul_notMem cwd.length_le, ?_⟩)
    rintro ⟨-, hwraps, -⟩
    unfold vfsPathMax at hpath
    change 2 ^ 32 ≤ path.chars.length + 128 at hwraps
    omega

/-- A name of 31 characters -/
def longName : List UInt8 := List.replicate 31 97

theorem longName_good : GoodName longName := by
  constructor
  · decide
  · decide
  · exact fun h => absurd (List.eq_of_mem_replicate h) (by decide)
  · exact fun h => absurd (List.eq_of_mem_replicate h) (by decide)
  · decide
  · decide

/-- Four of them, each behind its slash: 128 characters -/
def fourNames : CString :=
  ⟨slash :: (longName ++ [longName, longName, longName].flatMap (slash :: ·)), by decide⟩

theorem foldlM_fourNames : (fourNames.chars.splitOn slash).foldlM pushPart [] =
    some [longName, longName, longName, longName] := by
  have hgood : ∀ x ∈ [longName, longName, longName, longName], GoodName x := by
    simp [longName_good]
  have hfold : foldParts fourNames.chars [] = some [longName, longName, longName, longName] := by
    rw [fourNames, foldParts_cons_slash, foldParts, splitOn_joined _ _ longName_good.slash_notMem
      (by simp [longName_good.slash_notMem])]
    exact foldlM_pushPart_good _ [] hgood (by decide)
  exact hfold

/-- `vfs_normalize` on them stores past the end of its caller's buffer. -/
theorem fourNames_not_inBounds : ¬ InBounds [slash] fourNames.chars := by
  intro h
  have hend : ¬ Endless fourNames.chars := by
    have hlength : fourNames.chars.length = 128 := rfl
    unfold Endless
    omega
  have hk : 128 ∈ stores [slash] fourNames.chars := by
    have hne : fourNames.chars ≠ [] := List.cons_ne_nil _ _
    have habs : fourNames.chars.head? = some slash := rfl
    rw [stores, if_neg hne, if_pos habs, storesAbsolute, if_neg hend, splitParts_tail habs, foldlM_fourNames]
    have hlast : 128 ∈ List.range ((joinParts [longName, longName, longName, longName]).length + 1) :=
      List.mem_range.mpr (Nat.lt_succ_self 128)
    exact List.mem_cons_of_mem _ hlast
  exact absurd (h.1 128 hk) (by decide)

end MinOS.Vfs
