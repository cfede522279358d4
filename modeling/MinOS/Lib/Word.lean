/-
# MinOS.Lib.Word — masks on 64-bit words.

Page arithmetic is written with masks (`x & 4095`, `x & ~4095`, `x | flags`) and reasoned about with
quotients, remainders and sums. The lemmas here translate the first into the second for any mask of low
ones, any single bit, and any field above the low bits.
-/
import Mathlib.Data.Nat.Bitwise

namespace Word

/-- Masking with `k` low ones is the remainder. -/
theorem toNat_and_low (x m : UInt64) {k : Nat} (hm : m.toNat = 2 ^ k - 1) :
    (x &&& m).toNat = x.toNat % 2 ^ k := by
  rw [UInt64.toNat_and, hm, Nat.and_two_pow_sub_one_eq_mod]

/-- Masking the `k` low bits out rounds down. -/
theorem toNat_and_not_low (x m : UInt64) {k : Nat} (hm : m.toNat = 2 ^ k - 1) :
    (x &&& ~~~m).toNat = x.toNat / 2 ^ k * 2 ^ k := by
  rw [UInt64.toNat_and, UInt64.toNat_not]
  have hcompl : UInt64.size - 1 - m.toNat = 2 ^ 64 - (m.toNat + 1) := by
    simp only [UInt64.size]
    omega
  rw [hcompl]
  apply Nat.eq_of_testBit_eq
  intro i
  have hx : x.toNat.testBit i = true → i < 64 := by
    intro hbit
    by_contra hge
    have hsmall : x.toNat < 2 ^ i :=
      lt_of_lt_of_le x.toNat_lt (Nat.pow_le_pow_right (by decide) (by omega))
    rw [Nat.testBit_lt_two_pow hsmall] at hbit
    cases hbit
  have hlow : m.toNat.testBit i = decide (i < k) := by rw [hm, Nat.testBit_two_pow_sub_one]
  rw [Nat.testBit_and, Nat.testBit_two_pow_sub_succ m.toNat_lt, hlow, Nat.testBit_mul_two_pow,
    Nat.testBit_div_two_pow]
  by_cases hk : k ≤ i
  · have hshift : i - k + k = i := by omega
    have hnot : ¬ i < k := by omega
    cases hb : x.toNat.testBit i with
    | false => simp [hshift, hb]
    | true => simp [hk, hshift, hnot, hb, hx hb]
  · have hik : i < k := by omega
    simp [hk, hik]

/-- A single bit is set if and only if the quotient is odd. -/
theorem and_bit_ne_zero_iff (x m : UInt64) {k : Nat} (hm : m.toNat = 2 ^ k) :
    x &&& m ≠ 0 ↔ x.toNat / 2 ^ k % 2 = 1 := by
  have hpos : 0 < 2 ^ k := Nat.two_pow_pos k
  rw [ne_eq, ← UInt64.toNat_inj, UInt64.toNat_and, hm, Nat.and_two_pow, UInt64.toNat_zero,
    Nat.testBit_eq_decide_div_mod_eq]
  by_cases h : x.toNat / 2 ^ k % 2 = 1
  · simp [h]
  · simp [h]

/-- Or-ing flags into the low bits of an aligned word adds them. -/
theorem toNat_or_low (x f : UInt64) {k : Nat} (hx : 2 ^ k ∣ x.toNat) (hf : f.toNat < 2 ^ k) :
    (x ||| f).toNat = x.toNat + f.toNat := by
  obtain ⟨q, hq⟩ := hx
  rw [UInt64.toNat_or, hq, Nat.two_pow_add_eq_or_of_lt hf]

/-- Shifting right and masking `k` bits is a digit. -/
theorem toNat_shift_and (x n m : UInt64) {j k : Nat} (hn : n.toNat = j) (hj : j < 64)
    (hm : m.toNat = 2 ^ k - 1) : (x >>> n &&& m).toNat = x.toNat / 2 ^ j % 2 ^ k := by
  rw [toNat_and_low _ _ hm, UInt64.toNat_shiftRight, hn, Nat.mod_eq_of_lt hj,
    Nat.shiftRight_eq_div_pow]

end Word
