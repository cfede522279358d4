/-
# MinOS.Lib.NameTree — trees stored as parent links.

A naming tree is often kept not as a tree but as a flat collection of nodes, each of which knows
its parent and its own label. This file is the general theory of that representation: which label
sequences name which nodes (`Path`), when a name determines its node (`Distinct`), how a walk from
the root that looks up one label at a time finds it (`walk_eq_some_iff`), and how `Path` changes when
a leaf is added (`path_insert_iff`) or taken away (`path_erase_iff`).

Nothing here bounds the number of nodes or asks `up` to be acyclic: a node that does not reach the
root simply has no path.
-/
import Mathlib.Data.List.Induction
import Mathlib.Data.List.Basic

namespace NameTree

/-- Nodes linked upwards. `up` and `label` are total; only their values at live nodes matter. -/
structure Links (ι N : Type*) where
  root : ι
  live : ι → Prop
  up : ι → ι
  label : ι → N

namespace Links

variable {ι N : Type*}

/-- `L.Path i p`: following labels `p` down from the root leads to `i`. -/
inductive Path (L : Links ι N) : ι → List N → Prop
  | root : Path L L.root []
  | step {i : ι} {p : List N} : L.live i → i ≠ L.root → Path L (L.up i) p →
      Path L i (p ++ [L.label i])

/-- `i` is a live child of `j` under the label `x`. -/
def IsChild (L : Links ι N) (j : ι) (x : N) (i : ι) : Prop :=
  L.live i ∧ i ≠ L.root ∧ L.up i = j ∧ L.label i = x

/-- No two live nodes below one parent share a label. -/
def Distinct (L : Links ι N) : Prop :=
  ∀ j x i i', L.IsChild j x i → L.IsChild j x i' → i = i'

variable {L : Links ι N}

@[simp] theorem path_nil_iff {i : ι} : L.Path i [] ↔ i = L.root := by
  constructor
  · intro h
    generalize hp : ([] : List N) = p at h
    cases h with
    | root => rfl
    | step _ _ _ => simp at hp
  · rintro rfl
    exact .root

theorem path_concat_iff {i : ι} {p : List N} {x : N} :
    L.Path i (p ++ [x]) ↔ L.IsChild (L.up i) x i ∧ L.Path (L.up i) p := by
  constructor
  · intro h
    generalize hq : p ++ [x] = q at h
    cases h with
    | root => simp at hq
    | @step _ p' hl hr hp =>
      obtain ⟨rfl, hx⟩ := List.append_inj' hq rfl
      simp only [List.cons.injEq, and_true] at hx
      exact ⟨⟨hl, hr, rfl, hx.symm⟩, hp⟩
  · rintro ⟨⟨hl, hr, -, rfl⟩, hp⟩
    exact .step hl hr hp

/-- A node has at most one path. -/
theorem Path.unique {i : ι} {p q : List N} (hp : L.Path i p) (hq : L.Path i q) : p = q := by
  induction hp generalizing q with
  | root =>
    generalize hj : L.root = j at hq
    cases hq with
    | root => rfl
    | step _ hr _ => exact absurd hj.symm hr
  | @step i p hl hr hp ih =>
    generalize hj : i = j at hq
    cases hq with
    | root => exact absurd hj hr
    | step _ _ hq => subst hj; rw [ih hq]

/-- A path has at most one node, once siblings have distinct labels. -/
theorem Path.inj (hd : L.Distinct) {p : List N} :
    ∀ {i j : ι}, L.Path i p → L.Path j p → i = j := by
  induction p using List.reverseRecOn with
  | nil =>
    intro i j hi hj
    rw [path_nil_iff] at hi hj
    rw [hi, hj]
  | append_singleton p x ih =>
    intro i j hi hj
    rw [path_concat_iff] at hi hj
    have hup : L.up i = L.up j := ih hi.2 hj.2
    exact hd _ x i j hi.1 (hup ▸ hj.1)

/-- The node at the end of a path is live, if the root is. -/
theorem Path.live (hroot : L.live L.root) {i : ι} {p : List N} (h : L.Path i p) : L.live i := by
  cases h with
  | root => exact hroot
  | step hl _ _ => exact hl

theorem Path.eq_nil_iff {i : ι} {p : List N} (h : L.Path i p) : p = [] ↔ i = L.root := by
  constructor
  · rintro rfl
    exact path_nil_iff.mp h
  · rintro rfl
    exact h.unique .root

/-! ## Walking down from the root -/

/-- Resolve a label sequence one label at a time. -/
def walk (child : ι → N → Option ι) (start : ι) (p : List N) : Option ι := p.foldlM child start

/-- **The walk finds exactly the named node.** -/
theorem walk_eq_some_iff {child : ι → N → Option ι}
    (hchild : ∀ j x i, child j x = some i ↔ L.IsChild j x i) {p : List N} :
    ∀ {i : ι}, walk child L.root p = some i ↔ L.Path i p := by
  induction p using List.reverseRecOn with
  | nil =>
    intro i
    simp [walk, eq_comm]
  | append_singleton p x ih =>
    intro i
    have hsplit : walk child L.root (p ++ [x]) = (walk child L.root p).bind (child · x) := by
      simp only [walk, List.foldlM_append, List.foldlM_cons, List.foldlM_nil, bind_pure]
      rfl
    rw [hsplit, Option.bind_eq_some_iff, path_concat_iff]
    constructor
    · rintro ⟨j, hj, hi⟩
      have hc := (hchild j x i).mp hi
      have hup : L.up i = j := hc.2.2.1
      exact ⟨hup.symm ▸ hc, hup.symm ▸ ih.mp hj⟩
    · rintro ⟨hc, hp⟩
      exact ⟨L.up i, ih.mpr hp, (hchild _ x i).mpr hc⟩

/-! ## Changing one leaf -/

/-- **Adding a leaf** `k` below `j` under the label `x` adds the one path `q ++ [x]`, `q` the path of
`j`, and changes no other. `k` was not live and nothing live pointed at it. -/
theorem path_insert_iff {M : Links ι N} {j k : ι} {x : N} (hroot : M.root = L.root)
    (hk : k ≠ L.root) (hdead : ¬ L.live k) (hjk : j ≠ k)
    (horphan : ∀ i, L.live i → i ≠ L.root → L.up i ≠ k)
    (hnew : M.live k ∧ M.up k = j ∧ M.label k = x)
    (hlive : ∀ i, i ≠ k → (M.live i ↔ L.live i))
    (hup : ∀ i, i ≠ k → M.up i = L.up i) (hlabel : ∀ i, i ≠ k → M.label i = L.label i)
    {p : List N} : ∀ {i : ι},
      M.Path i p ↔ L.Path i p ∨ (i = k ∧ ∃ q, p = q ++ [x] ∧ L.Path j q) := by
  induction p using List.reverseRecOn with
  | nil =>
    intro i
    simp [hroot]
  | append_singleton p y ih =>
    intro i
    rw [path_concat_iff, path_concat_iff]
    by_cases hi : i = k
    · -- the new node itself: its only path goes through `j`
      subst hi
      rw [hnew.2.1, ih]
      simp only [IsChild, hroot, hnew, hdead, false_and, false_or, true_and]
      constructor
      · rintro ⟨⟨-, rfl⟩, hp | ⟨hj, -⟩⟩
        · exact ⟨p, rfl, hp⟩
        · exact absurd hj hjk
      · rintro ⟨q, hq, hp⟩
        obtain ⟨rfl, hy⟩ := List.append_inj' hq rfl
        simp only [List.cons.injEq, and_true] at hy
        exact ⟨⟨hk, hy.symm⟩, Or.inl hp⟩
    · -- an old node: its parent is old too
      simp only [IsChild, hroot, hlive i hi, hup i hi, hlabel i hi, hi, false_and, or_false]
      constructor
      · rintro ⟨hc, hp⟩
        rcases ih.mp hp with hp | ⟨hu, -⟩
        · exact ⟨hc, hp⟩
        · exact absurd hu (horphan i hc.1 hc.2.1)
      · rintro ⟨hc, hp⟩
        exact ⟨hc, ih.mpr (Or.inl hp)⟩

/-- **Taking a leaf away** removes its path and no other. -/
theorem path_erase_iff {M : Links ι N} {k : ι} (hroot : M.root = L.root) (hk : k ≠ L.root)
    (hleaf : ∀ i, L.live i → i ≠ L.root → L.up i ≠ k)
    (hlive : ∀ i, M.live i ↔ L.live i ∧ i ≠ k)
    (hup : ∀ i, M.up i = L.up i) (hlabel : ∀ i, M.label i = L.label i)
    {p : List N} : ∀ {i : ι}, M.Path i p ↔ L.Path i p ∧ i ≠ k := by
  induction p using List.reverseRecOn with
  | nil =>
    intro i
    rw [path_nil_iff, path_nil_iff, hroot]
    constructor
    · rintro rfl
      exact ⟨rfl, fun h => hk h.symm⟩
    · exact fun h => h.1
  | append_singleton p x ih =>
    intro i
    rw [path_concat_iff, path_concat_iff]
    simp only [IsChild, hroot, hlive, hup, hlabel]
    constructor
    · rintro ⟨⟨⟨hl, hik⟩, hr, -, hx⟩, hp⟩
      exact ⟨⟨⟨hl, hr, trivial, hx⟩, (ih.mp hp).1⟩, hik⟩
    · -- The parent of a node that stays is not `k`: `k` was a leaf.
      rintro ⟨⟨⟨hl, hr, -, hx⟩, hp⟩, hik⟩
      exact ⟨⟨⟨hl, hik⟩, hr, trivial, hx⟩, ih.mpr ⟨hp, hleaf i hl hr⟩⟩

end Links

end NameTree
