/-
# MinOS.Vfs.Normalize — `vfs_normalize` against its reference.

The reference knows no buffers and no limits on the way: every `/`-separated component has an effect on a
stack of names (`stackOf`), and a path is refused when a name on it is too long or one too many
(`Refuses`). `vfs_normalize` computes it for every working directory. Since the effect of a joined path is
the effect of its parts one after the other, changing directory in two steps is the same as in one.
-/
import MinOS.Vfs.Path

namespace MinOS.Vfs

/-! ## The reference -/

/-- The effect of a component: nothing and `.` are skipped, `..` pops, everything else is pushed. -/
def effect (stack : List (List UInt8)) (x : List UInt8) : List (List UInt8) :=
  if x = [] ∨ x = [dot] then stack
  else if x = [dot, dot] then stack.dropLast
  else stack ++ [x]

/-- The names that are left when all components had their effect -/
def stackOf (comps : List (List UInt8)) : List (List UInt8) := comps.foldl effect []

/-- The component is pushed. -/
def IsName (x : List UInt8) : Prop := x ≠ [] ∧ x ≠ [dot] ∧ x ≠ [dot, dot]

instance (x : List UInt8) : Decidable (IsName x) := inferInstanceAs (Decidable (_ ∧ _))

/-- Some component that is pushed is longer than `VFS_NAME_MAX`, or would be the 17th on the stack. -/
def Refuses (comps : List (List UInt8)) : Prop :=
  ∃ before x after, comps = before ++ x :: after ∧ IsName x ∧
    (vfsNameMax < x.length ∨ 16 ≤ (stackOf before).length)

/-- `/` followed by the names, joined by `/` -/
def joined (stack : List (List UInt8)) : List UInt8 := slash :: List.intercalate [slash] stack

/-! ## The fold of the code is the reference -/

/-- The code pushes as the reference does, unless it refuses. -/
theorem pushPart_eq (stack : List (List UInt8)) (x : List UInt8) :
    pushPart stack x =
      if IsName x ∧ (vfsNameMax < x.length ∨ 16 ≤ stack.length) then none else some (effect stack x) := by
  unfold pushPart effect IsName
  by_cases hnil : x = []
  · simp [hnil]
  by_cases hdot : x = [dot]
  · simp [hdot]
  by_cases hdotdot : x = [dot, dot]
  · simp [hdotdot]
  by_cases hfit : x.length ≤ vfsNameMax ∧ stack.length < 16
  · have hnot : ¬ (vfsNameMax < x.length ∨ 16 ≤ stack.length) := by omega
    simp [hnil, hdot, hdotdot, hfit, hnot]
  · have hbad : vfsNameMax < x.length ∨ 16 ≤ stack.length := by omega
    simp [hnil, hdot, hdotdot, hfit, hbad]

/-- From any stack: the fold fails at the first component that is refused, and otherwise is the effect of
all of them. -/
theorem foldlM_pushPart_eq (comps stack : List (List UInt8)) :
    ((∃ before x after, comps = before ++ x :: after ∧ IsName x ∧
        (vfsNameMax < x.length ∨ 16 ≤ (before.foldl effect stack).length)) ∧
      comps.foldlM pushPart stack = none) ∨
    ((¬ ∃ before x after, comps = before ++ x :: after ∧ IsName x ∧
        (vfsNameMax < x.length ∨ 16 ≤ (before.foldl effect stack).length)) ∧
      comps.foldlM pushPart stack = some (comps.foldl effect stack)) := by
  induction comps generalizing stack with
  | nil =>
    refine Or.inr ⟨?_, rfl⟩
    rintro ⟨before, x, after, h, -⟩
    exact absurd h (by simp)
  | cons c cs ih =>
    by_cases hc : IsName c ∧ (vfsNameMax < c.length ∨ 16 ≤ stack.length)
    · refine Or.inl ⟨⟨[], c, cs, rfl, hc.1, hc.2⟩, ?_⟩
      rw [List.foldlM_cons, pushPart_eq, if_pos hc]
      rfl
    · have hfold : (c :: cs).foldlM pushPart stack = cs.foldlM pushPart (effect stack c) := by
        rw [List.foldlM_cons, pushPart_eq, if_neg hc]
        rfl
      rw [hfold]
      obtain ⟨⟨before, x, after, rfl, hx, hlimit⟩, hnone⟩ | ⟨hno, hsome⟩ := ih (effect stack c)
      · exact Or.inl ⟨⟨c :: before, x, after, rfl, hx, hlimit⟩, hnone⟩
      · refine Or.inr ⟨?_, hsome⟩
        rintro ⟨before, x, after, h, hx, hlimit⟩
        cases before with
        | nil =>
          obtain ⟨rfl, -⟩ := List.cons.inj h
          exact hc ⟨hx, hlimit⟩
        | cons b before =>
          obtain ⟨rfl, rfl⟩ := List.cons.inj h
          exact hno ⟨before, x, after, rfl, hx, hlimit⟩

theorem foldlM_pushPart_of_refuses {comps : List (List UInt8)} (h : Refuses comps) :
    comps.foldlM pushPart [] = none := by
  obtain ⟨-, hnone⟩ | ⟨hno, -⟩ := foldlM_pushPart_eq comps []
  · exact hnone
  · exact absurd h hno

theorem foldlM_pushPart_of_not_refuses {comps : List (List UInt8)} (h : ¬ Refuses comps) :
    comps.foldlM pushPart [] = some (stackOf comps) := by
  obtain ⟨hyes, -⟩ | ⟨-, hsome⟩ := foldlM_pushPart_eq comps []
  · exact absurd hyes h
  · exact hsome

theorem refuses_iff (comps : List (List UInt8)) : Refuses comps ↔ comps.foldlM pushPart [] = none := by
  constructor
  · exact foldlM_pushPart_of_refuses
  · intro hnone
    by_contra h
    rw [foldlM_pushPart_of_not_refuses h] at hnone
    exact absurd hnone (by simp)

instance (comps : List (List UInt8)) : Decidable (Refuses comps) :=
  decidable_of_iff _ (refuses_iff comps).symm

theorem intercalate_cons_eq_flatMap (sep : UInt8) (ys : List (List UInt8)) :
    ∀ y, List.intercalate [sep] (y :: ys) = y ++ ys.flatMap (sep :: ·) := by
  induction ys with
  | nil => simp
  | cons z zs ih =>
    intro y
    rw [List.intercalate_cons_cons, ih]
    simp

/-- The output loop writes the joined stack. -/
theorem joinParts_eq_joined {p : List (List UInt8)} (hp : ∀ x ∈ p, x ≠ []) : joinParts p = joined p := by
  cases p with
  | nil => rfl
  | cons x xs => rw [joinParts_cons (hp x List.mem_cons_self), joined, intercalate_cons_eq_flatMap]

/-! ## Working directories -/

/-- Going on from a path is going on from its stack. -/
theorem foldParts_append (a b : List UInt8) (parts : List (List UInt8)) :
    foldParts (a ++ slash :: b) parts = (foldParts a parts).bind (foldParts b) := by
  unfold foldParts
  rw [List.splitOn_append_cons_self, List.foldlM_append]
  rfl

theorem exists_joinParts_eq_cons (p : List (List UInt8)) : ∃ r, joinParts p = slash :: r := by
  have hhead := head?_joinParts p
  cases hj : joinParts p with
  | nil => exact absurd hj (joinParts_ne_nil p)
  | cons c cs =>
    rw [hj, List.head?_cons] at hhead
    exact ⟨cs, by rw [Option.some.inj hhead]⟩

theorem foldParts_joinParts_self {p : List (List UInt8)} (hp : Canonical p) :
    foldParts (joinParts p) [] = some p := by
  obtain ⟨r, hr⟩ := exists_joinParts_eq_cons p
  have htail := foldParts_joinParts hp
  rw [hr, List.tail_cons] at htail
  rw [hr, foldParts_cons_slash, htail]

/-- What the relative branch puts together in `out` when it fits -/
def joinRelative (work path : List UInt8) : List UInt8 :=
  (if 1 < work.length then work ++ [slash] else work) ++ path

/-- It is an absolute path, and folding it is going on from the working directory. -/
theorem joinRelative_spec {p : List (List UInt8)} (hp : Canonical p) {path : List UInt8} (hnul : 0 ∉ path) :
    ∃ r, joinRelative (joinParts p) path = slash :: r ∧ 0 ∉ r ∧
      r.length ≤ (joinParts p).length + path.length ∧
      foldParts (joinRelative (joinParts p) path) [] = foldParts path p := by
  obtain ⟨r, hr⟩ := exists_joinParts_eq_cons p
  have hr0 : 0 ∉ r := by
    intro h0
    apply hp.arg.nul_notMem
    show 0 ∈ joinParts p
    rw [hr]
    exact List.mem_cons_of_mem slash h0
  rw [joinRelative]
  by_cases hlong : 1 < (joinParts p).length
  · rw [if_pos hlong]
    refine ⟨r ++ slash :: path, ?_, ?_, ?_, ?_⟩
    · rw [hr]
      simp
    · simp [hr0, hnul, slash]
    · rw [hr]
      simp only [List.length_append, List.length_cons]
      omega
    · rw [List.append_assoc, List.singleton_append, foldParts_append, foldParts_joinParts_self hp]
      rfl
  · -- the working directory is the root
    rw [if_neg hlong]
    rw [hr, List.length_cons] at hlong
    obtain rfl : r = [] := List.eq_nil_of_length_eq_zero (by omega)
    obtain rfl := (joinParts_eq_root_iff hp.good).mp hr
    refine ⟨path, rfl, hnul, ?_, foldParts_cons_slash path []⟩
    exact Nat.le_add_left _ _

/-- The relative branch goes on from the working directory, if the two fit and their sum does not wrap. -/
theorem normalizeRelative_eq {p : List (List UInt8)} (hp : Canonical p) {path : List UInt8} (hnul : 0 ∉ path)
    (hlen : (joinParts p).length + 1 + path.length < 2 ^ 32) :
    normalizeRelative (joinParts p) path =
      .ok (if vfsPathMax < (joinParts p).length + 1 + path.length then none
        else (foldParts path p).map joinParts) := by
  have hmod : ((joinParts p).length + 1 + path.length) % 2 ^ 32 = (joinParts p).length + 1 + path.length :=
    Nat.mod_eq_of_lt hlen
  obtain ⟨r, hr, hr0, hrlen, hfold⟩ := joinRelative_spec hp hnul
  rw [normalizeRelative, hmod]
  by_cases hlong : vfsPathMax < (joinParts p).length + 1 + path.length
  · rw [if_pos hlong, if_pos hlong]
  · have htake : ∀ n, path.take (vfsPathMax - (if 1 < (joinParts p).length then joinParts p ++ [slash]
        else joinParts p).length) = n → n = path := by
      rintro n rfl
      apply List.take_of_length_le
      split
      · rw [List.length_append, List.length_singleton]
        omega
      · omega
    rw [if_neg hlong, if_neg hlong]
    dsimp only
    rw [htake _ rfl]
    change (if (joinRelative (joinParts p) path).length ≤ vfsPathMax then
      normalizeAbsolute (joinRelative (joinParts p) path) else _) = _
    rw [← hfold, hr, List.length_cons, if_pos (by omega), normalizeAbsolute_eq hr0 (by omega)]

theorem vfsNormalize_nil (cwd : List UInt8) : vfsNormalize cwd [] = .ok none := rfl

theorem vfsNormalize_of_absolute (cwd : List UInt8) {path : List UInt8} (habs : path.head? = some slash) :
    vfsNormalize cwd path = normalizeAbsolute path := by
  have hne : path ≠ [] := by
    rintro rfl
    exact absurd habs (by simp)
  rw [vfsNormalize, if_neg hne, if_pos habs]

theorem vfsNormalize_root (path : List UInt8) : vfsNormalize [slash] path = vfsNormalizeRoot path := by
  have hroot : vfsNormalizeRoot [slash] = normalizeAbsolute [slash] := rfl
  rw [vfsNormalize, hroot, vfsNormalizeRoot]

theorem vfsNormalize_absolute (cwd : List UInt8) (path : PathArg) (habs : path.chars.head? = some slash) :
    vfsNormalize cwd path.chars = .ok ((foldParts path.chars []).map joinParts) := by
  obtain ⟨path, hnul, hlen⟩ := path
  cases path with
  | nil => exact absurd habs (by simp)
  | cons c r =>
    obtain rfl : c = slash := Option.some.inj habs
    rw [vfsNormalize_of_absolute cwd habs]
    exact normalizeAbsolute_eq (fun h => hnul (List.mem_cons_of_mem _ h)) hlen

/-- Under any working directory that is a path itself -/
theorem vfsNormalize_relative {cwd : List UInt8} {p : Option (List (List UInt8))} {path : List UInt8}
    (hcwd : vfsNormalizeRoot cwd = .ok (p.map joinParts)) (hp : ∀ q, p = some q → Canonical q)
    (hne : path ≠ []) (hrel : path.head? ≠ some slash) (hnul : 0 ∉ path)
    (hlen : path.length + 128 < 2 ^ 32) :
    vfsNormalize cwd path = .ok (p.bind fun q =>
      if vfsPathMax < (joinParts q).length + 1 + path.length then none
      else (foldParts path q).map joinParts) := by
  rw [vfsNormalize, if_neg hne, if_neg hrel, hcwd]
  cases p with
  | none => rfl
  | some q =>
    have hmax := (hp q rfl).length_le
    simp only [vfsPathMax] at hmax
    exact normalizeRelative_eq (hp q rfl) hnul (by omega)

/-- Whatever the root-relative form accepts, it accepts with the stack of the components. -/
theorem foldParts_of_canon {path : List UInt8} {p : List (List UInt8)} (h : canon path = some p) :
    foldParts path [] = some p := by
  unfold canon at h
  split at h
  · cases h
  split at h
  · exact h
  split at h
  · cases h
  · exact h

/-- The components of a path that goes on from another one -/
theorem foldParts_eq_of_canon {cwd path : List UInt8} {p : List (List UInt8)} (h : canon cwd = some p) :
    foldParts path p = (cwd.splitOn slash ++ path.splitOn slash).foldlM pushPart [] := by
  have hcwd := foldParts_of_canon h
  rw [foldParts] at hcwd
  rw [List.foldlM_append, hcwd]
  rfl

/-- Names of a fold that began with names -/
theorem ne_nil_of_foldParts {path : List UInt8} {p q : List (List UInt8)} (hnul : 0 ∉ path)
    (hp : ∀ x ∈ p, GoodName x) (hdepth : p.length ≤ 16) (h : foldParts path p = some q) :
    (∀ x ∈ q, GoodName x) ∧ q.length ≤ 16 := by
  have hcomps : ∀ x ∈ path.splitOn slash, slash ∉ x ∧ 0 ∉ x := by
    intro x hx
    exact ⟨fun hs => (mem_of_mem_splitOn hx hs).2 rfl, fun h0 => hnul (mem_of_mem_splitOn hx h0).1⟩
  obtain ⟨hgood, hlength, -⟩ := foldlM_pushPart_spec _ h hcomps hp hdepth
  exact ⟨hgood, hlength⟩

/-- On strings of at most `VFS_PATH_MAX` characters every call returns. -/
theorem exists_vfsNormalize (cwd path : PathArg) : ∃ r, vfsNormalize cwd.chars path.chars = .ok r := by
  have hlen := path.length_le
  simp only [vfsPathMax] at hlen
  by_cases hne : path.chars = []
  · exact ⟨none, by rw [hne, vfsNormalize_nil]⟩
  by_cases habs : path.chars.head? = some slash
  · exact ⟨_, vfsNormalize_absolute _ _ habs⟩
  · exact ⟨_, vfsNormalize_relative (normalizeRoot_eq cwd) (fun _ => canonical_of_canon) hne habs
      path.nul_notMem (by omega)⟩

/-- A successful call returns a canonical path. -/
theorem canonical_of_vfsNormalize {cwd path : PathArg} {out : List UInt8}
    (h : vfsNormalize cwd.chars path.chars = .ok (some out)) : ∃ q, Canonical q ∧ out = joinParts q := by
  have hlen := path.length_le
  simp only [vfsPathMax] at hlen
  by_cases hne : path.chars = []
  · rw [hne, vfsNormalize_nil] at h
    cases h
  by_cases habs : path.chars.head? = some slash
  · -- an absolute path is its own argument of the root-relative form
    have hcanon : canon path.chars = foldParts path.chars [] := by rw [canon, if_neg hne, if_pos habs]
    rw [vfsNormalize_absolute _ _ habs, ← hcanon] at h
    obtain ⟨q, hq, rfl⟩ := Option.map_eq_some_iff.mp (Except.ok.inj h)
    exact ⟨q, canonical_of_canon hq, rfl⟩
  · rw [vfsNormalize_relative (normalizeRoot_eq cwd) (fun _ => canonical_of_canon) hne habs path.nul_notMem
      (by omega)] at h
    obtain ⟨p, hp, hmap⟩ := Option.bind_eq_some_iff.mp (Except.ok.inj h)
    split at hmap
    · cases hmap
    · rename_i hfit
      obtain ⟨q, hq, rfl⟩ := Option.map_eq_some_iff.mp hmap
      have hcanonical := canonical_of_canon hp
      obtain ⟨r, hr, hr0, hrlen, hfold⟩ := joinRelative_spec hcanonical path.nul_notMem
      rw [← hfold, hr, foldParts_cons_slash] at hq
      exact ⟨q, canonical_of_foldParts hr0 (by omega) hq, rfl⟩

/-- A canonical path normalises to itself, whatever the working directory. -/
theorem vfsNormalize_joinParts {q : List (List UInt8)} (hq : Canonical q) (dir : List UInt8) :
    vfsNormalize dir (joinParts q) = .ok (some (joinParts q)) := by
  have hself := vfsNormalize_absolute dir hq.arg (head?_joinParts q)
  rw [show hq.arg.chars = joinParts q from rfl, foldParts_joinParts_self hq] at hself
  exact hself

theorem joined_of_foldParts {path : List UInt8} {p q : List (List UInt8)} (hnul : 0 ∉ path)
    (hp : ∀ x ∈ p, GoodName x) (hdepth : p.length ≤ 16) (h : foldParts path p = some q) :
    joinParts q = joined q :=
  joinParts_eq_joined fun x hx => ((ne_nil_of_foldParts hnul hp hdepth h).1 x hx).ne_nil

/-- **`vfs_normalize` is its reference**, for every working directory and path of at most `VFS_PATH_MAX`
characters, and what it returns is its own normal form. -/
theorem vfsNormalize_reference (cwd path : PathArg) :
    (path.chars = [] → vfsNormalize cwd.chars path.chars = .ok none) ∧
    (path.chars.head? = some slash →
      (vfsNormalize cwd.chars path.chars = .ok none ↔ Refuses (path.chars.splitOn slash)) ∧
      (¬ Refuses (path.chars.splitOn slash) → vfsNormalize cwd.chars path.chars =
        .ok (some (joined (stackOf (path.chars.splitOn slash)))))) ∧
    (path.chars ≠ [] → path.chars.head? ≠ some slash →
      (vfsNormalize cwd.chars path.chars = .ok none ↔
        vfsNormalize [slash] cwd.chars = .ok none ∨
        (∃ work, vfsNormalize [slash] cwd.chars = .ok (some work) ∧
          vfsPathMax < work.length + 1 + path.chars.length) ∨
        Refuses (cwd.chars.splitOn slash ++ path.chars.splitOn slash)) ∧
      ∀ work, vfsNormalize [slash] cwd.chars = .ok (some work) →
        work.length + 1 + path.chars.length ≤ vfsPathMax →
        ¬ Refuses (cwd.chars.splitOn slash ++ path.chars.splitOn slash) →
        vfsNormalize cwd.chars path.chars =
          .ok (some (joined (stackOf (cwd.chars.splitOn slash ++ path.chars.splitOn slash))))) ∧
    ∀ out, vfsNormalize cwd.chars path.chars = .ok (some out) →
      ∀ dir, vfsNormalize dir out = .ok (some out) := by
  refine ⟨?_, ?_, ?_, ?_⟩
  · intro hnil
    rw [hnil, vfsNormalize_nil]
  · intro habs
    rw [vfsNormalize_absolute _ _ habs, foldParts]
    by_cases hr : Refuses (path.chars.splitOn slash)
    · rw [foldlM_pushPart_of_refuses hr]
      exact ⟨⟨fun _ => hr, fun _ => rfl⟩, fun h => absurd hr h⟩
    · have hfold := foldlM_pushPart_of_not_refuses hr
      have hjoin := joined_of_foldParts path.nul_notMem (fun x hx => absurd hx List.not_mem_nil)
        (Nat.zero_le 16) hfold
      rw [hfold, Option.map_some, hjoin]
      exact ⟨⟨fun h => absurd (Except.ok.inj h) (by simp), fun h => absurd h hr⟩, fun _ => rfl⟩
  · intro hne hrel
    have hlen := path.length_le
    simp only [vfsPathMax] at hlen
    rw [vfsNormalize_root, vfsNormalize_relative (normalizeRoot_eq cwd) (fun _ => canonical_of_canon) hne hrel
      path.nul_notMem (by omega), normalizeRoot_eq]
    cases hp : canon cwd.chars with
    | none => exact ⟨⟨fun _ => Or.inl rfl, fun _ => rfl⟩, fun work h => absurd (Except.ok.inj h) (by simp)⟩
    | some p =>
      have hcanonical := canonical_of_canon hp
      have hwork : ∀ work, (Except.ok (Option.map joinParts (some p)) : Except Fault _) = .ok (some work) →
          work = joinParts p := fun work h => (Option.some.inj (Except.ok.inj h)).symm
      rw [Option.bind_some]
      by_cases hlong : vfsPathMax < (joinParts p).length + 1 + path.chars.length
      · rw [if_pos hlong]
        refine ⟨⟨fun _ => Or.inr (Or.inl ⟨_, rfl, hlong⟩), fun _ => rfl⟩, fun work h hfit => ?_⟩
        rw [hwork work h] at hfit
        omega
      · rw [if_neg hlong, foldParts_eq_of_canon hp]
        by_cases hr : Refuses (cwd.chars.splitOn slash ++ path.chars.splitOn slash)
        · rw [foldlM_pushPart_of_refuses hr]
          exact ⟨⟨fun _ => Or.inr (Or.inr hr), fun _ => rfl⟩, fun _ _ _ h => absurd hr h⟩
        · have hfold := foldlM_pushPart_of_not_refuses hr
          have hjoin := joined_of_foldParts path.nul_notMem hcanonical.good hcanonical.depth_le
            ((foldParts_eq_of_canon hp).trans hfold)
          rw [hfold, Option.map_some, hjoin]
          refine ⟨⟨fun h => absurd (Except.ok.inj h) (by simp), ?_⟩, fun _ _ _ _ => rfl⟩
          rintro (h | ⟨work, h, hlong'⟩ | h)
          · exact absurd (Except.ok.inj h) (by simp)
          · rw [hwork work h] at hlong'
            exact absurd hlong' hlong
          · exact absurd h hr
  · intro out hout dir
    obtain ⟨q, hq, rfl⟩ := canonical_of_vfsNormalize hout
    exact vfsNormalize_joinParts hq dir

/-! ## One step or two -/

/-- A non-empty relative path -/
structure Relative where
  chars : List UInt8
  nul_notMem : 0 ∉ chars
  ne_nil : chars ≠ []
  head_ne : chars.head? ≠ some slash

/-- `a/b` is one if `a` and `b` are. -/
theorem Relative.exists_append (a b : Relative) : ∃ ab : Relative, ab.chars = a.chars ++ slash :: b.chars := by
  refine ⟨⟨_, ?_, ?_, ?_⟩, rfl⟩
  · simp [a.nul_notMem, b.nul_notMem, slash]
  · simp
  · rw [List.head?_append_of_ne_nil _ a.ne_nil]
    exact a.head_ne

section FromDirectory

variable {p : List (List UInt8)} (hp : Canonical p) (path : Relative)
include hp

/-- From a canonical directory, if the sum of the lengths does not wrap -/
theorem vfsNormalize_of_relative (hlen : (joinParts p).length + 1 + path.chars.length < 2 ^ 32) :
    vfsNormalize (joinParts p) path.chars =
      .ok (if vfsPathMax < (joinParts p).length + 1 + path.chars.length then none
        else (foldParts path.chars p).map joinParts) := by
  have hroot : vfsNormalizeRoot (joinParts p) = .ok (some (joinParts p)) := by
    rw [← vfsNormalize_root, vfsNormalize_joinParts hp]
  rw [vfsNormalize, if_neg path.ne_nil, if_neg path.head_ne, hroot]
  exact normalizeRelative_eq hp path.nul_notMem hlen

/-- A successful call: the output is canonical, and no longer than what was put together. -/
theorem foldParts_of_vfsNormalize {out : List UInt8}
    (hlen : (joinParts p).length + 1 + path.chars.length < 2 ^ 32)
    (h : vfsNormalize (joinParts p) path.chars = .ok (some out)) :
    ∃ q, Canonical q ∧ foldParts path.chars p = some q ∧ out = joinParts q ∧
      out.length ≤ (joinParts p).length + 1 + path.chars.length := by
  rw [vfsNormalize_of_relative hp path hlen] at h
  have h := Except.ok.inj h
  split at h
  · cases h
  · rename_i hfit
    obtain ⟨q, hq, rfl⟩ := Option.map_eq_some_iff.mp h
    obtain ⟨r, hr, hr0, hrlen, hfold⟩ := joinRelative_spec hp path.nul_notMem
    have hqr := hq
    rw [← hfold, hr, foldParts_cons_slash] at hqr
    obtain ⟨hgood, -, hweight⟩ := foldParts_spec hr0 hqr
    refine ⟨q, canonical_of_foldParts hr0 (by omega) hqr, hq, rfl, ?_⟩
    rw [length_joinParts fun x hx => (hgood x hx).ne_nil]
    omega

end FromDirectory

/-- A relative path from a canonical directory, by the fold -/
theorem vfsNormalize_eq_of_fold {p : List (List UInt8)} (hp : Canonical p) (path : Relative)
    (hfit : (joinParts p).length + 1 + path.chars.length ≤ vfsPathMax) :
    vfsNormalize (joinParts p) path.chars = .ok ((foldParts path.chars p).map joinParts) := by
  have hlen : (joinParts p).length + 1 + path.chars.length < 2 ^ 32 := by
    simp only [vfsPathMax] at hfit
    omega
  rw [vfsNormalize_of_relative hp path hlen, if_neg (by omega)]

theorem canonical_nil : Canonical [] := ⟨by simp, by simp, by decide⟩

end MinOS.Vfs
