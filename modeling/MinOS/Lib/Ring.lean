/-
# Ring — the window of a circular buffer.

A circular buffer of `n` slots is read from slot `first` on; `window f n first count` are the `count`
values it holds. One more value goes into the slot after the window, the oldest one leaves from the front,
and neither moves any other value.
-/
import Mathlib.Data.List.Basic
import Mathlib.Data.List.Range
import Mathlib.Data.Int.ModEq

namespace Ring

variable {α : Type*}

/-- The values of the `count` slots from `first` on -/
def window (f : Nat → α) (n first count : Nat) : List α :=
  (List.range count).map fun i => f ((first + i) % n)

theorem length_window (f : Nat → α) (n first count : Nat) : (window f n first count).length = count := by
  rw [window, List.length_map, List.length_range]

/-- Two offsets below `n` name two slots. -/
theorem slot_inj {n first i j : Nat} (hi : i < n) (hj : j < n)
    (h : (first + i) % n = (first + j) % n) : i = j := by
  have hmod : i % n = j % n := Nat.ModEq.add_left_cancel' first h
  rwa [Nat.mod_eq_of_lt hi, Nat.mod_eq_of_lt hj] at hmod

/-- A value stored right after the window joins it. -/
theorem window_push {f g : Nat → α} {n first count : Nat} {a : α} (hcount : count < n)
    (hstored : g ((first + count) % n) = a)
    (hrest : ∀ i, i < n → i ≠ (first + count) % n → g i = f i) :
    window g n first (count + 1) = window f n first count ++ [a] := by
  unfold window
  rw [List.range_succ, List.map_append, List.map_singleton, hstored]
  congr 1
  apply List.map_congr_left
  intro i hi
  have hlt : i < count := List.mem_range.mp hi
  apply hrest _ (Nat.mod_lt _ (by omega))
  intro hsame
  have := slot_inj (by omega) hcount hsame
  omega

/-- The value at the front, and the window without it -/
theorem window_pop (f : Nat → α) {n first count : Nat} :
    window f n first (count + 1) = f (first % n) :: window f n ((first + 1) % n) count := by
  unfold window
  rw [List.range_succ_eq_map, List.map_cons, List.map_map, Nat.add_zero]
  congr 1
  apply List.map_congr_left
  intro i _
  show f ((first + (i + 1)) % n) = f (((first + 1) % n + i) % n)
  rw [Nat.mod_add_mod]
  congr 2
  omega

end Ring
