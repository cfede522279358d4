/-
# MinOS.Lib.Bytes — little-endian words, byte strings and fixed byte fields.

Three small pieces every packed on-disk format needs: the little-endian codec of a `w`-byte word
(`leByte` / `leNat`, inverse to each other by `leNat_leByte`), the reading of a NUL-terminated string
out of a fixed byte field (`chars`), and the store of a string into one (`copyStr`), with the round
trip `chars_copyStr`.
-/
import Mathlib.Data.List.GetD
import Mathlib.Data.List.OfFn
import Mathlib.Data.List.TakeWhile
import Mathlib.Tactic.Ring

namespace Bytes

/-! ## Little-endian words -/

/-- Byte `k` (counted from the low end) of `n`. -/
def leByte (n k : Nat) : UInt8 := UInt8.ofNat (n / 256 ^ k)

/-- The word whose `w` bytes, low end first, are `b 0`, `b 1`, …. -/
def leNat : (w : Nat) → (b : Nat → UInt8) → Nat
  | 0, _ => 0
  | w + 1, b => (b 0).toNat + 256 * leNat w fun k => b (k + 1)

theorem leByte_succ (n k : Nat) : leByte n (k + 1) = leByte (n / 256) k := by
  rw [leByte, leByte, Nat.pow_succ', Nat.div_div_eq_div_mul]

theorem leNat_congr {w : Nat} {b c : Nat → UInt8} (h : ∀ k < w, b k = c k) :
    leNat w b = leNat w c := by
  induction w generalizing b c with
  | zero => rfl
  | succ w ih =>
    rw [leNat, leNat, h 0 (by omega), ih fun k hk => h (k + 1) (by omega)]

/-- **Round trip.** Decoding the first `w` bytes of `n` gives `n` modulo `256 ^ w`. -/
theorem leNat_leByte (w n : Nat) : leNat w (leByte n) = n % 256 ^ w := by
  induction w generalizing n with
  | zero => simp [leNat, Nat.mod_one]
  | succ w ih =>
    have hlow : (leByte n 0).toNat = n % 256 := by simp [leByte]
    have hhigh : leNat w (fun k => leByte n (k + 1)) = n / 256 % 256 ^ w := by
      rw [leNat_congr fun k _ => leByte_succ n k]
      exact ih (n / 256)
    rw [leNat, hlow, hhigh, Nat.pow_succ', Nat.mod_mul]

/-! ## Strings in fixed fields -/

/-- The string a fixed field holds: its bytes before the first NUL. -/
def chars {n : Nat} (f : Fin n → UInt8) : List UInt8 := (List.ofFn f).takeWhile (· ≠ 0)

/-- The field contains a NUL, so that a reader of the string stops inside it. -/
def Terminated {n : Nat} (f : Fin n → UInt8) : Prop := ∃ j, f j = 0

instance {n : Nat} (f : Fin n → UInt8) : Decidable (Terminated f) :=
  inferInstanceAs (Decidable (∃ j, f j = 0))

/-- Store a string and its NUL into a field of `n` bytes, cut to `n - 1` characters; the bytes after
the NUL stay as they were. -/
def copyStr {n : Nat} (f : Fin n → UInt8) (s : List UInt8) : Fin n → UInt8 := fun j =>
  if j.val < min s.length (n - 1) then s.getD j 0
  else if j.val = min s.length (n - 1) then 0
  else f j

theorem terminated_copyStr {n : Nat} (hn : 0 < n) (f : Fin n → UInt8) (s : List UInt8) :
    Terminated (copyStr f s) := by
  refine ⟨⟨min s.length (n - 1), by omega⟩, ?_⟩
  simp [copyStr]

/-- **Round trip.** A string that fits and has no NUL of its own is read back unchanged. -/
theorem chars_copyStr {n : Nat} (f : Fin n → UInt8) {s : List UInt8} (hs : s.length < n)
    (h0 : 0 ∉ s) : chars (copyStr f s) = s := by
  have hsplit : List.ofFn (copyStr f s)
      = s ++ 0 :: (List.ofFn (copyStr f s)).drop (s.length + 1) := by
    apply List.ext_getElem
    · simp only [List.length_ofFn, List.length_append, List.length_cons, List.length_drop]
      omega
    · intro k hk _
      simp only [List.length_ofFn] at hk
      rcases Nat.lt_trichotomy k s.length with h | h | h
      · rw [List.getElem_append_left h, List.getElem_ofFn, copyStr, if_pos (by simp; omega)]
        exact List.getD_eq_getElem _ _ h
      · subst h
        rw [List.getElem_append_right le_rfl, List.getElem_ofFn, copyStr, if_neg (by simp),
          if_pos (by simp; omega)]
        simp
      · rw [List.getElem_append_right (by omega)]
        obtain ⟨m, rfl⟩ : ∃ m, k = s.length + 1 + m := ⟨k - (s.length + 1), by omega⟩
        simp [show s.length + 1 + m - s.length = m + 1 by omega]
  have hall : ∀ a ∈ s, decide (a ≠ 0) = true := by
    intro a ha
    have : a ≠ 0 := fun h => h0 (h ▸ ha)
    simpa using this
  rw [chars, hsplit, List.takeWhile_append_of_pos hall, List.takeWhile_cons_of_neg (by simp),
    List.append_nil]

end Bytes
