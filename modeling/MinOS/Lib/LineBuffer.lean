/-
# MinOS.Lib.LineBuffer — a terminated text in a fixed array, edited in place.

An array holds a text if the text, the terminator and anything else stand in it, in this order (`Holds`). An
element is inserted by moving everything behind the place one up, from the far end, and erased by moving
everything behind it one down, the terminator included. Both are loops of single loads and stores with a bound
check each; `insert_holds` and `erase_holds` say that on an array with room they pass all checks and do to the
text what they are for.
-/
import Mathlib.Data.List.Induction
import MinOS.Lib.Machine

namespace LineBuffer

open Machine

variable {α ε : Type}

/-! ## Accesses -/

/-- `b[i]` -/
def load (e : ε) (b : List α) (i : Nat) : Except ε α :=
  match b[i]? with
  | some x => .ok x
  | none => .error e

/-- `b[i] = x` -/
def store (e : ε) (b : List α) (i : Nat) (x : α) : Except ε (List α) :=
  if i < b.length then .ok (b.set i x) else .error e

/-- `for (n = steps; n; --n) { b[i] = b[i + 1]; ++i; }` -/
def shiftDown (e : ε) : (steps i : Nat) → (b : List α) → Except ε (List α)
  | 0, _, b => .ok b
  | steps + 1, i, b => do
    let x ← load e b (i + 1)
    let b ← store e b i x
    shiftDown e steps (i + 1) b

/-- `while (i > cursor) { b[i] = b[i - 1]; --i; }` -/
def shiftUp (e : ε) (cursor : Nat) : (i : Nat) → (b : List α) → Except ε (List α)
  | 0, b => .ok b
  | i + 1, b =>
    if cursor < i + 1 then do
      let x ← load e b i
      let b ← store e b (i + 1) x
      shiftUp e cursor i b
    else .ok b

/-- `b[i++] = x` for every element -/
def storeAll (e : ε) : (text : List α) → (i : Nat) → (b : List α) → Except ε (List α)
  | [], _, b => .ok b
  | x :: text, i, b => do
    let b ← store e b i x
    storeAll e text (i + 1) b

section Accesses

variable (e : ε) (before after : List α) (x y : α)

@[simp] theorem load_append : load e (before ++ x :: after) before.length = .ok x := by
  simp [load]

@[simp] theorem store_append : store e (before ++ x :: after) before.length y = .ok (before ++ y :: after) := by
  simp [store]

end Accesses

/-! ## Erasing -/

/-- What is behind an element takes its place; the last one stays behind as well. -/
theorem shiftDown_append (e : ε) (after : List α) : ∀ (before rest : List α) (x : α),
    shiftDown e after.length before.length (before ++ x :: (after ++ rest)) =
      .ok (before ++ (after ++ (x :: after).getLast (List.cons_ne_nil _ _) :: rest)) := by
  induction after with
  | nil => exact fun _ _ _ => rfl
  | cons y after ih =>
    intro before rest x
    have hload : load e (before ++ x :: (y :: after ++ rest)) (before.length + 1) = .ok y := by simp [load]
    rw [List.length_cons, shiftDown, hload, ok_bind, store_append, ok_bind]
    have hnext := ih (before ++ [y]) rest y
    rw [List.length_append, List.length_singleton] at hnext
    simp only [List.append_assoc, List.singleton_append] at hnext
    rw [List.cons_append, hnext]
    simp

/-! ## Inserting -/

/-- What is between the cursor and the end moves one place up, over the element there. -/
theorem shiftUp_append (e : ε) (after : List α) : ∀ (before rest : List α) (z : α),
    shiftUp e before.length (before.length + after.length) (before ++ (after ++ z :: rest)) =
      .ok (before ++ ((after ++ [z]).head (by simp) :: (after ++ rest))) := by
  induction after using List.reverseRecOn with
  | nil =>
    intro before rest z
    cases before with
    | nil => rfl
    | cons x before => simp [shiftUp]
  | append_singleton after y ih =>
    intro before rest z
    have hload : load e (before ++ (after ++ [y] ++ z :: rest)) (before.length + after.length) = .ok y := by
      rw [← List.length_append, ← List.append_assoc, ← List.append_assoc, List.append_assoc (before ++ after)]
      exact load_append e (before ++ after) (z :: rest) y
    have hstore : store e (before ++ (after ++ [y] ++ z :: rest)) (before.length + after.length + 1) y =
        .ok (before ++ (after ++ y :: y :: rest)) := by
      have := store_append e (before ++ (after ++ [y])) rest z y
      simp only [List.length_append, List.length_singleton, List.append_assoc, List.singleton_append] at this ⊢
      exact this
    rw [List.length_append, List.length_singleton, ← Nat.add_assoc, shiftUp, if_pos (by omega), hload, ok_bind,
      hstore, ok_bind, ih before (y :: rest) y]
    cases after <;> simp

/-! ## Overwriting -/

theorem storeAll_append (e : ε) (text : List α) : ∀ (before old rest : List α), old.length = text.length →
    storeAll e text before.length (before ++ (old ++ rest)) = .ok (before ++ (text ++ rest)) := by
  induction text with
  | nil =>
    intro before old rest hlen
    rw [List.eq_nil_of_length_eq_zero hlen]
    rfl
  | cons x text ih =>
    intro before old rest hlen
    obtain ⟨y, old, rfl⟩ := List.exists_cons_of_length_eq_add_one hlen
    have hnext := ih (before ++ [x]) old rest (by simpa using hlen)
    rw [List.length_append, List.length_singleton] at hnext
    simp only [List.append_assoc, List.singleton_append] at hnext
    rw [storeAll, List.cons_append, store_append, ok_bind, hnext]
    simp

/-- Storing from the first place on, as far as there is room -/
theorem storeAll_eq (e : ε) {text b : List α} (hlen : text.length ≤ b.length) :
    storeAll e text 0 b = .ok (text ++ b.drop text.length) := by
  have hsplit := storeAll_append e text [] (b.take text.length) (b.drop text.length)
    (by rw [List.length_take, Nat.min_eq_left hlen])
  rw [List.take_append_drop] at hsplit
  exact hsplit

/-! ## Texts -/

/-- The array of `n` elements holds the text and then the terminator. -/
def Holds (n : Nat) (z : α) (b text : List α) : Prop := b.length = n ∧ ∃ rest, b = text ++ z :: rest

section Texts

variable {n : Nat} {z : α} {b before after : List α}

theorem Holds.length_lt {text : List α} (h : Holds n z b text) : text.length < n := by
  obtain ⟨hlen, rest, rfl⟩ := h
  rw [List.length_append, List.length_cons] at hlen
  omega

/-- The text is what stands before the terminator. -/
theorem Holds.take {text : List α} (h : Holds n z b text) : b.take text.length = text := by
  obtain ⟨-, rest, rfl⟩ := h
  exact List.take_left

/-- **Overwriting** with a text and a terminator -/
theorem overwrite_holds {text : List α} (hb : b.length = n) (hlen : text.length < n) (e : ε) :
    ∃ b' b'', storeAll e text 0 b = .ok b' ∧ store e b' text.length z = .ok b'' ∧ Holds n z b'' text := by
  have hrest : b.drop text.length ≠ [] := by
    rw [Ne, List.drop_eq_nil_iff]
    omega
  obtain ⟨x, rest, hx⟩ := List.exists_cons_of_ne_nil hrest
  have hlength := congrArg List.length hx
  rw [List.length_drop, List.length_cons] at hlength
  refine ⟨text ++ x :: rest, text ++ z :: rest, ?_, store_append e text rest x z, ?_, rest, rfl⟩
  · rw [storeAll_eq e (by omega), hx]
  · rw [List.length_append, List.length_cons]
    omega

/-- A text ends earlier when the terminator is stored earlier. -/
theorem Holds.cut (h : Holds n z b (before ++ after)) (e : ε) :
    ∃ b', store e b before.length z = .ok b' ∧ Holds n z b' before := by
  obtain ⟨hlen, rest, rfl⟩ := h
  cases after with
  | nil =>
    refine ⟨before ++ z :: rest, ?_, by simpa using hlen, rest, rfl⟩
    simp [store]
  | cons x after =>
    refine ⟨before ++ z :: (after ++ z :: rest), ?_, by simpa using hlen, _, rfl⟩
    rw [List.append_assoc, List.cons_append, store_append]

/-- **Inserting**: everything behind the cursor moves up, the element is stored, and so is a new terminator. -/
theorem insert_holds (h : Holds n z b (before ++ after)) (hroom : before.length + after.length + 1 < n) (e : ε)
    (x : α) : ∃ b' b'' b''', shiftUp e before.length (before.length + after.length) b = .ok b' ∧
      store e b' before.length x = .ok b'' ∧ store e b'' (before.length + after.length + 1) z = .ok b''' ∧
      Holds n z b''' (before ++ x :: after) := by
  obtain ⟨hlen, rest, rfl⟩ := h
  simp only [List.length_append, List.length_cons] at hlen
  obtain ⟨r, rest, rfl⟩ : ∃ r rest', rest = r :: rest' := by
    apply List.exists_cons_of_ne_nil
    rintro rfl
    rw [List.length_nil] at hlen
    omega
  rw [List.append_assoc]
  refine ⟨_, before ++ x :: (after ++ r :: rest), before ++ x :: (after ++ z :: rest),
    shiftUp_append e after before _ z, store_append _ _ _ _ _, ?_, ?_, rest, by simp⟩
  · have := store_append e (before ++ x :: after) rest r z
    simp only [List.length_append, List.length_cons, List.append_assoc, List.cons_append] at this
    rw [Nat.add_assoc]
    exact this
  · simp only [List.length_append, List.length_cons] at hlen ⊢
    omega

/-- **Erasing**: everything behind the element moves down, the terminator last. -/
theorem erase_holds {x : α} (h : Holds n z b (before ++ x :: after)) (e : ε) :
    ∃ b', shiftDown e (after.length + 1) before.length b = .ok b' ∧ Holds n z b' (before ++ after) := by
  obtain ⟨hlen, rest, rfl⟩ := h
  have hshift := shiftDown_append e (after ++ [z]) before rest x
  rw [List.length_append, List.length_singleton] at hshift
  refine ⟨before ++ (after ++ z :: z :: rest), ?_, ?_, z :: rest, by simp⟩
  · simpa using hshift
  · simp only [List.length_append, List.length_cons] at hlen ⊢
    omega

end Texts

end LineBuffer
