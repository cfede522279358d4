/-
# MinOS.Console.Walk — `tree` and `find` visit every descendant once.

The walks know only paths: each level joins a path and a name in a bounded buffer and looks the result up again,
and they give up at depth 16. On a well-formed table none of that shows: a record has a canonical path, and a
canonical path fits the buffer and has at most 16 names. So the walks are the traversal of the table itself
(`preorder`), which has every record below the start exactly once.
-/
import MinOS.Console.Shell
import MinOS.Vfs.Refine

namespace MinOS.Console

open MinOS.Vfs NameTree Machine
open Bytes (chars)

/-! ## The traversal of the table -/

/-- The records below `n`, in slot order -/
def children (t : Table) (n : Slot) : List Slot := slots.filter (isChildOf t n)

/-- The name of a record -/
def nameOf (t : Table) (i : Slot) : List UInt8 := chars (t i).name

/-- Everything below the record `n` at the path `p`, each child followed by what is below it, at most `fuel`
levels deep -/
def preorder (t : Table) : (fuel : Nat) → (p : List (List UInt8)) → (n : Slot) → List (List (List UInt8) × Slot)
  | 0, _, _ => []
  | fuel + 1, p, n => (children t n).flatMap fun i =>
      (p ++ [nameOf t i], i) :: preorder t fuel (p ++ [nameOf t i]) i

section Table

variable {t : Table} (h : Wf t)
include h

theorem isChild_of_mem_children {n i : Slot} (hi : i ∈ children t n) :
    (links t).IsChild n (nameOf t i) i := by
  obtain ⟨hslot, hchild⟩ := List.mem_filter.mp hi
  rw [isChildOf, decide_eq_true_eq] at hchild
  exact h.isChild_iff.mpr ⟨hslot, hchild.1, hchild.2, rfl⟩

theorem mem_children_of_isChild {n i : Slot} {x : List UInt8} (hi : (links t).IsChild n x i) :
    i ∈ children t n ∧ nameOf t i = x := by
  obtain ⟨hslot, hu, hup, hx⟩ := h.isChild_iff.mp hi
  refine ⟨List.mem_filter.mpr ⟨hslot, ?_⟩, hx⟩
  rw [isChildOf, decide_eq_true_eq]
  exact ⟨hu, hup⟩

theorem path_of_mem_children {n i : Slot} {p : List (List UInt8)} (hp : (links t).Path n p)
    (hi : i ∈ children t n) : (links t).Path i (p ++ [nameOf t i]) := by
  have hchild := isChild_of_mem_children h hi
  rw [Links.path_concat_iff]
  have hup : (links t).up i = n := hchild.2.2.1
  rw [hup]
  exact ⟨hchild, hp⟩

/-- Only directories have something below them. -/
theorem children_of_file {n : Slot} (hf : (t n).type = VfsType.file.code) : children t n = [] := by
  rw [children, List.filter_eq_nil_iff]
  intro i hi hchild
  rw [isChildOf, decide_eq_true_eq] at hchild
  obtain ⟨j, hj, -, hdir⟩ := h.parent i (mem_slots.mp hi) hchild.1
  have hjn : j = n := by
    apply Fin.ext
    exact_mod_cast hj.symm.trans hchild.2
  rw [hjn, hf] at hdir
  exact absurd hdir (by decide)

/-- Below a file there is nothing to visit. -/
theorem preorder_of_file {fuel : Nat} {p : List (List UInt8)} {n : Slot}
    (hf : (t n).type ≠ VfsType.directory.code) (hp : (links t).Path n p) :
    preorder t fuel p n = [] := by
  cases fuel with
  | zero => rfl
  | succ fuel =>
    have hfile := (h.type n (h.path_used hp)).resolve_left hf
    rw [preorder, children_of_file h hfile, List.flatMap_nil]

/-- The traversal has exactly the records below the start, down to its depth. -/
theorem mem_preorder_iff {fuel : Nat} : ∀ {p : List (List UInt8)} {n : Slot}, (links t).Path n p →
    ∀ {q : List (List UInt8)} {i : Slot}, (q, i) ∈ preorder t fuel p n ↔
      ∃ rest, rest ≠ [] ∧ rest.length ≤ fuel ∧ q = p ++ rest ∧ (links t).Path i q := by
  induction fuel with
  | zero =>
    intro p n _ q i
    constructor
    · intro hmem
      exact absurd hmem List.not_mem_nil
    · rintro ⟨rest, hne, hlen, -⟩
      exact absurd (List.eq_nil_of_length_eq_zero (Nat.le_zero.mp hlen)) hne
  | succ fuel ih =>
    intro p n hp q i
    rw [preorder, List.mem_flatMap]
    constructor
    · rintro ⟨j, hj, hmem⟩
      have hpj := path_of_mem_children h hp hj
      rcases List.mem_cons.mp hmem with heq | hmem
      · obtain ⟨rfl, rfl⟩ := Prod.mk.inj heq
        exact ⟨[nameOf t i], by simp, by simp, rfl, hpj⟩
      · obtain ⟨rest, -, hlen, rfl, hi⟩ := (ih hpj).mp hmem
        refine ⟨nameOf t j :: rest, by simp, ?_, by simp, hi⟩
        rw [List.length_cons]
        omega
    · rintro ⟨rest, hne, hlen, rfl, hi⟩
      -- the first name of the rest leads to a child
      obtain ⟨x, rest, rfl⟩ := List.exists_cons_of_ne_nil hne
      have hbegins : ∀ (rest : List (List UInt8)) {i : Slot}, (links t).Path i (p ++ x :: rest) →
          ∃ j, (links t).Path j (p ++ [x]) := by
        intro rest
        induction rest using List.reverseRecOn with
        | nil => exact fun hi => ⟨_, hi⟩
        | append_singleton rest y ihrest =>
          intro i hi
          rw [← List.cons_append, ← List.append_assoc, Links.path_concat_iff] at hi
          exact ihrest hi.2
      obtain ⟨j, hj⟩ := hbegins rest hi
      have hj' := Links.path_concat_iff.mp hj
      have hup : (links t).up j = n := hj'.2.inj h.distinct hp
      obtain ⟨hmem, hname⟩ := mem_children_of_isChild h (hup ▸ hj'.1)
      refine ⟨j, hmem, ?_⟩
      rw [hname]
      cases rest with
      | nil =>
        obtain rfl : i = j := hi.inj h.distinct hj
        exact List.mem_cons_self
      | cons y rest =>
        apply List.mem_cons_of_mem
        apply (ih hj).mpr
        refine ⟨y :: rest, by simp, ?_, by simp, hi⟩
        simp only [List.length_cons] at hlen ⊢
        omega

/-- A path has at most 16 names, so the depth of the traversal cuts nothing off. -/
theorem preorder_succ {fuel : Nat} : ∀ {p : List (List UInt8)} {n : Slot}, (links t).Path n p →
    16 ≤ p.length + fuel → preorder t (fuel + 1) p n = preorder t fuel p n := by
  induction fuel with
  | zero =>
    intro p n hp hdeep
    have hnone : children t n = [] := by
      rw [List.eq_nil_iff_forall_not_mem]
      intro i hi
      have hdepth := (h.canonical_of_path (path_of_mem_children h hp hi)).depth_le
      rw [List.length_append, List.length_singleton] at hdepth
      omega
    show (children t n).flatMap _ = []
    rw [hnone, List.flatMap_nil]
  | succ fuel ih =>
    intro p n hp hdeep
    rw [preorder, preorder]
    apply List.flatMap_congr
    intro i hi
    rw [ih (path_of_mem_children h hp hi) (by rw [List.length_append, List.length_singleton]; omega)]

theorem preorder_of_le {fuel : Nat} (hfuel : 16 ≤ fuel) {p : List (List UInt8)} {n : Slot}
    (hp : (links t).Path n p) : preorder t fuel p n = preorder t 16 p n := by
  induction fuel, hfuel using Nat.le_induction with
  | base => rfl
  | succ fuel hfuel ih => rw [preorder_succ h hp (by omega), ih]

/-- No record twice -/
theorem nodup_preorder {fuel : Nat} : ∀ {p : List (List UInt8)} {n : Slot}, (links t).Path n p →
    ((preorder t fuel p n).map Prod.fst).Nodup := by
  induction fuel with
  | zero => exact fun _ => List.nodup_nil
  | succ fuel ih =>
    intro p n hp
    rw [preorder, List.map_flatMap, List.nodup_flatMap]
    constructor
    · intro i hi
      have hpi := path_of_mem_children h hp hi
      rw [List.map_cons, List.nodup_cons]
      refine ⟨?_, ih hpi⟩
      intro hmem
      obtain ⟨⟨q, j⟩, hq, hqp⟩ := List.mem_map.mp hmem
      obtain ⟨rest, hne, -, hrest, -⟩ := (mem_preorder_iff h hpi).mp hq
      have hself : q = p ++ [nameOf t i] := hqp
      rw [hself, List.self_eq_append_right] at hrest
      exact hne hrest
    · -- what is below one child begins with its name
      have hbegins : ∀ i ∈ children t n, ∀ q ∈ ((p ++ [nameOf t i], i) ::
          preorder t fuel (p ++ [nameOf t i]) i).map Prod.fst, p ++ [nameOf t i] <+: q := by
        intro i hi q hq
        obtain ⟨⟨q', j⟩, hmem, rfl⟩ := List.mem_map.mp hq
        rcases List.mem_cons.mp hmem with heq | hmem
        · obtain ⟨rfl, rfl⟩ := Prod.mk.inj heq
          exact List.prefix_rfl
        · obtain ⟨rest, -, -, rfl, -⟩ := (mem_preorder_iff h (path_of_mem_children h hp hi)).mp hmem
          exact List.prefix_append _ _
      have hnodup : (children t n).Nodup := nodup_slots.filter _
      refine List.Pairwise.imp_of_mem ?_ hnodup
      intro i j hi hj hij q hqi hqj
      have hlen : (p ++ [nameOf t i]).length = (p ++ [nameOf t j]).length := by simp
      have hsame := List.prefix_or_prefix_of_prefix (hbegins i hi q hqi) (hbegins j hj q hqj)
      have hname : p ++ [nameOf t i] = p ++ [nameOf t j] := by
        rcases hsame with hpre | hpre
        · exact hpre.eq_of_length hlen
        · exact (hpre.eq_of_length hlen.symm).symm
      have hpi := path_of_mem_children h hp hi
      rw [hname] at hpi
      exact hij (hpi.inj h.distinct (path_of_mem_children h hp hj))

end Table

/-! ## One level of a walk -/

/-- The name of a child fits the buffer behind the path of its directory. -/
theorem consoleAppendPath_eq {p : List (List UInt8)} {x : List UInt8} (hp : Canonical (p ++ [x])) :
    consoleAppendPath (joinParts p) x = some (joinParts (p ++ [x])) := by
  have hne : x.length ≠ 0 := by
    have := (hp.good x (by simp)).ne_nil
    simpa using this
  have hlen := hp.length_le
  rw [joinParts_concat, joinPart, List.length_append] at hlen
  have hbase : (joinParts p).length ≤ (if 1 < (joinParts p).length then joinParts p ++ [slash]
      else joinParts p).length := by
    split
    · simp
    · exact Nat.le_refl _
  rw [consoleAppendPath, if_neg (by omega)]
  dsimp only
  rw [if_pos (by omega), joinParts_concat, joinPart]

section Level

variable {s : State} (h : Wf s.records)
include h

/-- A directory is listed with all its children. -/
theorem vfsList_joinParts {p : List (List UInt8)} {n : Slot} (hp : (links s.records).Path n p)
    (hd : (s.records n).type = VfsType.directory.code) :
    vfsList s (joinParts p) 64 = .ok (some ((children s.records n).map fun i => direntOf (s.records i))) := by
  have hcanonical := h.canonical_of_path hp
  have hlookup : lookup s.records (joinParts p) = some n := by
    rw [lookup, canon_joinParts hcanonical, Option.bind_some]
    exact h.resolve_eq_some_iff.mpr hp
  have hlist := h.list_eq hcanonical.arg 64
  rw [show hcanonical.arg.chars = joinParts p from rfl, hlookup, Option.bind_some, if_pos hd, listLoop_eq,
    List.nil_append, List.take_of_length_le] at hlist
  · exact hlist
  · have hfilter := List.length_filter_le (isChildOf s.records n) slots
    have hslots : slots.length = 63 := by decide
    rw [List.length_map]
    show _ ≤ 64
    omega

/-- The entry of a child has its name and its type. -/
theorem direntOf_child {n i : Slot} (hi : i ∈ children s.records n) :
    (direntOf (s.records i)).name = nameOf s.records i ∧ (direntOf (s.records i)).type = (s.records i).type := by
  obtain ⟨hslot, hchild⟩ := List.mem_filter.mp hi
  rw [isChildOf, decide_eq_true_eq] at hchild
  have hgood := (h.name i (mem_slots.mp hslot) hchild.1).2
  exact ⟨List.take_of_length_le hgood.length_le, rfl⟩

end Level

/-! ## What the walks do -/

/-- `  ` for every level, the name, `/` behind a directory -/
def treeLine (t : Table) (depth : Nat) (i : Slot) : List Effect :=
  (List.replicate depth (consolePuts (text "  "))).flatten ++ entryLine ⟨nameOf t i, (t i).type, (t i).size⟩

/-- The effects of `console_tree_walk` at the record `n` with the path `p` -/
def treeEffects (t : Table) : (fuel depth : Nat) → (p : List (List UInt8)) → (n : Slot) → List Effect
  | 0, _, _, _ => []
  | fuel + 1, depth, p, n => .call (joinParts p) :: (children t n).flatMap fun i =>
      treeLine t depth i ++
        if (t i).type = VfsType.directory.code then treeEffects t fuel (depth + 1) (p ++ [nameOf t i]) i else []

/-- The line `console_find_walk` prints for a record -/
def findLine (t : Table) (needle : List UInt8) (q : List (List UInt8)) (i : Slot) : List Effect :=
  if consoleNameMatches (nameOf t i) needle then consolePuts (joinParts q) ++ [.putc newline] else []

/-- The effects of `console_find_walk` -/
def findEffects (t : Table) (needle : List UInt8) :
    (fuel : Nat) → (p : List (List UInt8)) → (n : Slot) → List Effect
  | 0, _, _ => []
  | fuel + 1, p, n => .call (joinParts p) :: (children t n).flatMap fun i =>
      findLine t needle (p ++ [nameOf t i]) i ++
        if (t i).type = VfsType.directory.code then findEffects t needle fuel (p ++ [nameOf t i]) i else []

section Walks

variable {s : State} (h : Wf s.records)
include h

theorem consoleTreeWalk_eq (fuel : Nat) : ∀ (depth : Nat) {p : List (List UInt8)} {n : Slot},
    (links s.records).Path n p → (s.records n).type = VfsType.directory.code →
    consoleTreeWalk s fuel depth (joinParts p) = .ok (treeEffects s.records fuel depth p n) := by
  induction fuel with
  | zero => exact fun _ _ _ _ _ => rfl
  | succ fuel ih =>
    intro depth p n hp hd
    rw [consoleTreeWalk, vfsList_joinParts h hp hd, ok_bind]
    dsimp only
    rw [List.mapM_map, mapM_eq_ok (g := fun i => treeLine s.records depth i ++
      if (s.records i).type = VfsType.directory.code then
        treeEffects s.records fuel (depth + 1) (p ++ [nameOf s.records i]) i else [])]
    · rw [ok_bind, treeEffects, List.flatMap_def]
    · intro i hi
      obtain ⟨hname, htype⟩ := direntOf_child h hi
      have hpi := path_of_mem_children h hp hi
      have hline : entryLine (direntOf (s.records i)) =
          entryLine ⟨nameOf s.records i, (s.records i).type, (s.records i).size⟩ := by
        unfold entryLine
        rw [hname, htype]
      dsimp only [Function.comp]
      rw [htype, hname, hline]
      split
      · rename_i hdi
        rw [consoleAppendPath_eq (h.canonical_of_path hpi)]
        dsimp only
        rw [ih (depth + 1) hpi hdi, ok_bind]
        rfl
      · rw [List.append_nil]
        rfl

theorem consoleFindWalk_eq (needle : List UInt8) (fuel : Nat) : ∀ {p : List (List UInt8)} {n : Slot},
    (links s.records).Path n p → (s.records n).type = VfsType.directory.code →
    consoleFindWalk s needle fuel (joinParts p) = .ok (findEffects s.records needle fuel p n) := by
  induction fuel with
  | zero => exact fun _ _ => rfl
  | succ fuel ih =>
    intro p n hp hd
    rw [consoleFindWalk, vfsList_joinParts h hp hd, ok_bind]
    dsimp only
    rw [List.mapM_map, mapM_eq_ok (g := fun i => findLine s.records needle (p ++ [nameOf s.records i]) i ++
      if (s.records i).type = VfsType.directory.code then
        findEffects s.records needle fuel (p ++ [nameOf s.records i]) i else [])]
    · rw [ok_bind, findEffects, List.flatMap_def]
    · intro i hi
      obtain ⟨hname, htype⟩ := direntOf_child h hi
      have hpi := path_of_mem_children h hp hi
      dsimp only [Function.comp]
      rw [htype, hname, consoleAppendPath_eq (h.canonical_of_path hpi)]
      dsimp only
      split
      · rename_i hdi
        rw [ih hpi hdi, ok_bind]
        rfl
      · rw [List.append_nil]
        rfl

end Walks

/-! ## What the walks print -/

/-- `console_name_matches` looks for a contiguous part. -/
theorem consoleNameMatches_iff {name needle : List UInt8} :
    consoleNameMatches name needle = true ↔ needle <:+: name := by
  induction name with
  | nil => simp [consoleNameMatches]
  | cons c name ih =>
    rw [consoleNameMatches, Bool.or_eq_true, Bool.or_eq_true, ih, List.infix_cons_iff, List.isPrefixOf_iff_prefix]
    constructor
    · rintro ((hempty | hpre) | hinfix)
      · rw [List.isEmpty_iff.mp hempty]
        exact Or.inl List.nil_prefix
      · exact Or.inl hpre
      · exact Or.inr hinfix
    · rintro (hpre | hinfix)
      · exact Or.inl (Or.inr hpre)
      · exact Or.inr hinfix

/-- The line of `tree` for a record `depth` levels below the children of the start -/
def treeText (t : Table) (depth : Nat) (i : Slot) : List UInt8 :=
  (List.replicate depth (text "  ")).flatten ++ nameOf t i ++
    (if (t i).type = VfsType.directory.code then [slash] else []) ++ [newline]

@[simp] theorem printed_nil : printed [] = [] := rfl

@[simp] theorem printed_putc (c : UInt8) (effects : List Effect) :
    printed (.putc c :: effects) = c :: printed effects := rfl

@[simp] theorem printed_normalize (cwd path : List UInt8) (effects : List Effect) :
    printed (.normalize cwd path :: effects) = printed effects := rfl

@[simp] theorem printed_call (path : List UInt8) (effects : List Effect) :
    printed (.call path :: effects) = printed effects := rfl

@[simp] theorem printed_append (a b : List Effect) : printed (a ++ b) = printed a ++ printed b :=
  List.filterMap_append

@[simp] theorem printed_consolePuts (x : List UInt8) : printed (consolePuts x) = x := by
  induction x with
  | nil => rfl
  | cons c x ih => exact congrArg (c :: ·) ih

theorem printed_flatMap {α : Type} (l : List α) (f : α → List Effect) :
    printed (l.flatMap f) = l.flatMap fun a => printed (f a) := by
  rw [List.flatMap_def, printed, List.filterMap_flatten, List.map_map, List.flatMap_def]
  rfl

theorem printed_treeLine (t : Table) (depth : Nat) (i : Slot) : printed (treeLine t depth i) = treeText t depth i := by
  have hindent : ∀ depth, printed (List.replicate depth (consolePuts (text "  "))).flatten =
      (List.replicate depth (text "  ")).flatten := by
    intro depth
    induction depth with
    | zero => rfl
    | succ depth ih =>
      rw [List.replicate_succ, List.flatten_cons, printed_append, printed_consolePuts, ih, List.replicate_succ,
        List.flatten_cons]
  rw [treeLine, printed_append, hindent, entryLine, printed_append, printed_consolePuts, treeText]
  split <;> simp [printed]

theorem printed_findLine (t : Table) (needle : List UInt8) (q : List (List UInt8)) (i : Slot) :
    printed (findLine t needle q i) = if needle <:+: nameOf t i then joinParts q ++ [newline] else [] := by
  unfold findLine
  by_cases hmatch : needle <:+: nameOf t i
  · rw [if_pos hmatch, if_pos (consoleNameMatches_iff.mpr hmatch), printed_append, printed_consolePuts]
    rfl
  · rw [if_neg hmatch, if_neg (fun hc => hmatch (consoleNameMatches_iff.mp hc))]
    rfl

theorem flatMap_filter {α β : Type} (P : α → Prop) [DecidablePred P] (l : List α) (f : α → List β) :
    (l.filter fun a => P a).flatMap f = l.flatMap fun a => if P a then f a else [] := by
  induction l with
  | nil => rfl
  | cons a l ih =>
    rw [List.filter_cons, List.flatMap_cons, ← ih]
    by_cases ha : P a
    · rw [if_pos (by simpa using ha), if_pos ha, List.flatMap_cons]
    · rw [if_neg (by simpa using ha), if_neg ha, List.nil_append]

section Printed

variable {s : State} (h : Wf s.records)
include h

/-- `tree` prints a line for every visit, indented by the depth below the start. -/
theorem printed_treeEffects (fuel : Nat) : ∀ (depth : Nat) {p : List (List UInt8)} {n : Slot},
    (links s.records).Path n p → printed (treeEffects s.records fuel depth p n) =
      (preorder s.records fuel p n).flatMap fun v =>
        printed (treeLine s.records (depth + (v.1.length - (p.length + 1))) v.2) := by
  induction fuel with
  | zero => exact fun _ _ _ _ => rfl
  | succ fuel ih =>
    intro depth p n hp
    rw [treeEffects, preorder, List.flatMap_assoc]
    change printed (List.flatMap _ _) = _
    rw [printed_flatMap]
    apply List.flatMap_congr
    intro i hi
    have hpi := path_of_mem_children h hp hi
    have hbelow : printed (if (s.records i).type = VfsType.directory.code then
        treeEffects s.records fuel (depth + 1) (p ++ [nameOf s.records i]) i else []) =
          (preorder s.records fuel (p ++ [nameOf s.records i]) i).flatMap fun v =>
            printed (treeLine s.records (depth + (v.1.length - (p.length + 1))) v.2) := by
      split
      · rw [ih (depth + 1) hpi]
        apply List.flatMap_congr
        rintro ⟨q, j⟩ hv
        obtain ⟨rest, hne, -, rfl, -⟩ := (mem_preorder_iff h hpi).mp hv
        have hpos := List.length_pos_of_ne_nil hne
        have hdepth : depth + 1 + ((p ++ [nameOf s.records i] ++ rest).length -
            ((p ++ [nameOf s.records i]).length + 1)) =
              depth + ((p ++ [nameOf s.records i] ++ rest).length - (p.length + 1)) := by
          simp only [List.length_append, List.length_singleton]
          omega
        rw [hdepth]
      · rename_i hf
        rw [preorder_of_file h hf hpi]
        rfl
    rw [printed_append, hbelow, List.flatMap_cons]
    congr 2
    have hzero : (p ++ [nameOf s.records i]).length - (p.length + 1) = 0 := by simp
    rw [hzero, Nat.add_zero]

/-- `find` prints a line for every visit whose name matches. -/
theorem printed_findEffects (needle : List UInt8) (fuel : Nat) : ∀ {p : List (List UInt8)} {n : Slot},
    (links s.records).Path n p → printed (findEffects s.records needle fuel p n) =
      (preorder s.records fuel p n).flatMap fun v => printed (findLine s.records needle v.1 v.2) := by
  induction fuel with
  | zero => exact fun _ => rfl
  | succ fuel ih =>
    intro p n hp
    rw [findEffects, preorder, List.flatMap_assoc]
    change printed (List.flatMap _ _) = _
    rw [printed_flatMap]
    apply List.flatMap_congr
    intro i hi
    have hpi := path_of_mem_children h hp hi
    rw [printed_append, List.flatMap_cons]
    congr 1
    split
    · exact ih hpi
    · rename_i hf
      rw [preorder_of_file h hf hpi]
      rfl

end Printed

end MinOS.Console
