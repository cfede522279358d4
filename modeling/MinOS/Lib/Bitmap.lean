/-
# MinOS.Lib.Bitmap — a set of natural numbers packed into machine words.

A bitmap is a sequence of `w`-bit words; index `i` is bit `i % w` of word `i / w`. Inserting ors one
bit into one word and erasing masks it out. `mem_insert` and `mem_erase` say that the packing is
invisible: each operation changes the membership of exactly one index. `support b n` is the set a
bitmap of capacity `n` stands for.
-/
import Mathlib.Data.Finset.Card
import Mathlib.Data.Finset.Range
import Mathlib.Data.Nat.Bitwise

namespace Bitmap

variable {w : Nat} (b : Nat → BitVec w) (i j n : Nat)

/-- Whether index `i` is in the set -/
def mem : Bool := (b (i / w)).getLsbD (i % w)

/-- Or the bit of index `i` into its word. -/
def insert : Nat → BitVec w := Function.update b (i / w) (b (i / w) ||| 1#w <<< (i % w))

/-- Mask the bit of index `i` out of its word. -/
def erase : Nat → BitVec w := Function.update b (i / w) (b (i / w) &&& ~~~(1#w <<< (i % w)))

/-! ## One index at a time -/

/-- A one shifted to position `k` has that bit and no other. -/
theorem getLsbD_one_shiftLeft {k l : Nat} (hl : l < w) :
    (1#w <<< k).getLsbD l = decide (l = k) := by
  rw [BitVec.getLsbD_shiftLeft, BitVec.getLsbD_one]
  by_cases hlk : l < k
  · have hne : l ≠ k := by omega
    simp [hlk, hne]
  · have hsub : l - k = 0 ↔ l = k := by omega
    have hw : 0 < w := by omega
    simp [hl, hlk, hsub, hw]

/-- Two indices agree exactly when they share the word and the bit. -/
theorem eq_iff_word_bit : j = i ↔ j / w = i / w ∧ j % w = i % w := by
  constructor
  · rintro rfl
    exact ⟨rfl, rfl⟩
  · rintro ⟨hq, hr⟩
    rw [← Nat.div_add_mod j w, ← Nat.div_add_mod i w, hq, hr]

theorem mem_insert (hw : 0 < w) : mem (insert b i) j = (decide (j = i) || mem b j) := by
  have hbit : j % w < w := Nat.mod_lt _ hw
  by_cases hword : j / w = i / w
  · have heq : j = i ↔ j % w = i % w := by rw [eq_iff_word_bit (w := w) i j]; simp [hword]
    simp only [mem, insert, hword, Function.update_self, BitVec.getLsbD_or,
      getLsbD_one_shiftLeft hbit, heq]
    exact Bool.or_comm _ _
  · have hne : j ≠ i := by
      rintro rfl
      exact hword rfl
    simp [mem, insert, hword, hne]

theorem mem_erase (hw : 0 < w) : mem (erase b i) j = (!decide (j = i) && mem b j) := by
  have hbit : j % w < w := Nat.mod_lt _ hw
  by_cases hword : j / w = i / w
  · have heq : j = i ↔ j % w = i % w := by rw [eq_iff_word_bit (w := w) i j]; simp [hword]
    simp only [mem, erase, hword, Function.update_self, BitVec.getLsbD_and, BitVec.getLsbD_not,
      getLsbD_one_shiftLeft hbit, heq, hbit, decide_true, Bool.true_and]
    exact Bool.and_comm _ _
  · have hne : j ≠ i := by
      rintro rfl
      exact hword rfl
    simp [mem, erase, hword, hne]

variable {b} in
/-- Bitmaps with the same members are the same words. -/
theorem ext_mem {c : Nat → BitVec w} (h : ∀ i, mem b i = mem c i) : b = c := by
  funext k
  apply BitVec.eq_of_getLsbD_eq
  intro l hl
  have hw : 0 < w := by omega
  have hbit := h (l + w * k)
  simp only [mem, Nat.add_mul_div_left l k hw, Nat.div_eq_of_lt hl, Nat.zero_add,
    Nat.add_mul_mod_self_left, Nat.mod_eq_of_lt hl] at hbit
  exact hbit

/-! ## The set a bitmap stands for -/

/-- The members below the capacity `n` -/
def support : Finset Nat := (Finset.range n).filter fun i => mem b i = true

@[simp] theorem mem_support : i ∈ support b n ↔ i < n ∧ mem b i = true := by
  simp [support]

variable {i n}

theorem support_insert (hw : 0 < w) (hi : i < n) :
    support (insert b i) n = Insert.insert i (support b n) := by
  ext j
  simp only [mem_support, mem_insert b i j hw, Finset.mem_insert, Bool.or_eq_true,
    decide_eq_true_eq]
  constructor
  · rintro ⟨hj, rfl | hm⟩
    · exact Or.inl rfl
    · exact Or.inr ⟨hj, hm⟩
  · rintro (rfl | ⟨hj, hm⟩)
    · exact ⟨hi, Or.inl rfl⟩
    · exact ⟨hj, Or.inr hm⟩

theorem support_erase (hw : 0 < w) : support (erase b i) n = (support b n).erase i := by
  ext j
  simp only [mem_support, mem_erase b i j hw, Finset.mem_erase, Bool.and_eq_true,
    Bool.not_eq_true', decide_eq_false_iff_not]
  tauto

/-- No index is in a bitmap of zero words. -/
@[simp] theorem support_zero : support (fun _ => 0#w) n = ∅ := by
  ext j
  simp [mem]

end Bitmap
