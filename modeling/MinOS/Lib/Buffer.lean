/-
# Buffer — byte strings that are written in place and cut into regions.

A file format is a byte string with fields at fixed offsets. `put` overwrites a field, `puts` several of
them; `region` cuts bytes out, `word` reads a little-endian number. Two things are used again and again: a
field of a list of disjoint fields reads back as it was written (`region_puts`), and a region of a joined
string is a region of the part it lies in.
-/
import Mathlib.Data.List.Basic
import Mathlib.Data.List.Flatten
import Mathlib.Data.List.Range
import MinOS.Lib.Bytes

namespace Buffer

open Bytes (leByte leNat leNat_congr leNat_leByte)

/-! ## Regions and words -/

/-- The `n` bytes from `offset` on, as far as they exist -/
def region (buf : List UInt8) (offset n : Nat) : List UInt8 := (buf.drop offset).take n

/-- The little-endian number in the `w` bytes from `offset` on; bytes past the end count as 0 -/
def word (w : Nat) (buf : List UInt8) (offset : Nat) : Nat := leNat w fun k => buf.getD (offset + k) 0

/-- The `w` bytes of `n`, low end first -/
def leBytes (w n : Nat) : List UInt8 := (List.range w).map (leByte n)

@[simp] theorem length_leBytes (w n : Nat) : (leBytes w n).length = w := by
  rw [leBytes, List.length_map, List.length_range]

theorem getD_region {buf : List UInt8} {offset n i : Nat} (hi : i < n) :
    (region buf offset n).getD i 0 = buf.getD (offset + i) 0 := by
  rw [region, List.getD_eq_getElem?_getD, List.getElem?_take_of_lt hi, List.getElem?_drop,
    List.getD_eq_getElem?_getD]

/-- A word of a region is a word of the string. -/
theorem word_region {buf : List UInt8} {offset n i w : Nat} (hi : i + w ≤ n) :
    word w (region buf offset n) i = word w buf (offset + i) := by
  unfold word
  apply leNat_congr
  intro k hk
  rw [getD_region (by omega), Nat.add_assoc]

theorem region_region {buf : List UInt8} {offset n i m : Nat} (hi : i + m ≤ n) :
    region (region buf offset n) i m = region buf (offset + i) m := by
  rw [region, region, region, List.drop_take, List.take_take, List.drop_drop]
  congr 1
  omega

/-- A word depends on its own bytes only. -/
theorem word_eq_region (w : Nat) (buf : List UInt8) (offset : Nat) :
    word w buf offset = word w (region buf offset w) 0 := by
  rw [word_region (Nat.le_of_eq (Nat.zero_add w)), Nat.add_zero]

/-- Two regions in a row -/
theorem region_add (buf : List UInt8) (offset m n : Nat) :
    region buf offset (m + n) = region buf offset m ++ region buf (offset + m) n := by
  rw [region, List.take_add, List.drop_drop]
  rfl

/-- Reading a word back from its bytes -/
theorem word_leBytes {w n : Nat} (hn : n < 256 ^ w) : word w (leBytes w n) 0 = n := by
  have hbytes : word w (leBytes w n) 0 = leNat w (leByte n) := by
    unfold word
    apply leNat_congr
    intro k hk
    rw [Nat.zero_add, leBytes, List.getD_eq_getElem?_getD, List.getElem?_map,
      List.getElem?_range hk]
    rfl
  rw [hbytes, leNat_leByte, Nat.mod_eq_of_lt hn]

/-! ## Joined strings -/

theorem region_append_left {a b : List UInt8} {offset n : Nat} (h : offset + n ≤ a.length) :
    region (a ++ b) offset n = region a offset n := by
  rw [region, List.drop_append_of_le_length (by omega), List.take_append_of_le_length]
  · rfl
  · rw [List.length_drop]
    omega

theorem region_append_right {a b : List UInt8} {offset n : Nat} (h : a.length ≤ offset) :
    region (a ++ b) offset n = region b (offset - a.length) n := by
  rw [region, List.drop_append, List.drop_eq_nil_of_le h, List.nil_append]
  rfl

theorem region_all {a : List UInt8} {n : Nat} (h : a.length = n) : region a 0 n = a := by
  rw [region, List.drop_zero, ← h, List.take_length]

theorem region_append_front {a b : List UInt8} {n : Nat} (h : a.length = n) :
    region (a ++ b) 0 n = a := by
  rw [region_append_left (by omega), region_all h]

theorem region_replicate {m offset n : Nat} (h : offset + n ≤ m) :
    region (List.replicate m 0) offset n = List.replicate n 0 := by
  rw [region, List.drop_replicate, List.take_replicate]
  congr 1
  omega

/-- Consecutive regions join to the string they are cut from. -/
theorem flatMap_region (a : List UInt8) (n k : Nat) :
    ((List.range n).flatMap fun i => region a (i * k) k) = a.take (n * k) := by
  induction n with
  | zero => rw [Nat.zero_mul, List.take_zero, List.range_zero, List.flatMap_nil]
  | succ n ih =>
    rw [List.range_succ, List.flatMap_append, ih, List.flatMap_singleton, Nat.succ_mul, List.take_add]
    rfl

/-! ## Fields -/

/-- Bytes and where they go -/
structure Field where
  offset : Nat
  bytes : List UInt8

/-- One past the last byte of the field -/
def Field.stop (f : Field) : Nat := f.offset + f.bytes.length

/-- `buf[offset:stop] = bytes` -/
def put (f : Field) (buf : List UInt8) : List UInt8 :=
  buf.take f.offset ++ (f.bytes ++ buf.drop f.stop)

/-- The assignments in order -/
def puts : List Field → List UInt8 → List UInt8
  | [], buf => buf
  | f :: fs, buf => puts fs (put f buf)

/-- The fields have no byte in common. -/
def Field.Apart (f g : Field) : Prop := f.stop ≤ g.offset ∨ g.stop ≤ f.offset

instance (f g : Field) : Decidable (f.Apart g) := inferInstanceAs (Decidable (_ ∨ _))

theorem length_put {f : Field} {buf : List UInt8} (h : f.stop ≤ buf.length) :
    (put f buf).length = buf.length := by
  unfold put Field.stop at *
  rw [List.length_append, List.length_append, List.length_take, List.length_drop]
  omega

theorem length_puts {fs : List Field} {buf : List UInt8} (h : ∀ f ∈ fs, f.stop ≤ buf.length) :
    (puts fs buf).length = buf.length := by
  induction fs generalizing buf with
  | nil => rfl
  | cons f fs ih =>
    have hf := length_put (h f List.mem_cons_self)
    rw [puts, ih, hf]
    intro g hg
    rw [hf]
    exact h g (List.mem_cons_of_mem _ hg)

/-- A field that was written reads back. -/
theorem region_put_self {f : Field} {buf : List UInt8} (h : f.stop ≤ buf.length) :
    region (put f buf) f.offset f.bytes.length = f.bytes := by
  have hle : (buf.take f.offset).length = f.offset := by
    unfold Field.stop at h
    rw [List.length_take]
    omega
  unfold put
  rw [region_append_right (Nat.le_of_eq hle), hle, Nat.sub_self, region_append_left (by omega),
    region_all rfl]

/-- Bytes outside the field stay. -/
theorem region_put_of_apart {f : Field} {buf : List UInt8} {offset n : Nat} (h : f.stop ≤ buf.length)
    (hapart : offset + n ≤ f.offset ∨ f.stop ≤ offset) :
    region (put f buf) offset n = region buf offset n := by
  have hle : (buf.take f.offset).length = f.offset := by
    unfold Field.stop at h
    rw [List.length_take]
    omega
  unfold put
  rcases hapart with hbefore | hafter
  · rw [region_append_left (by omega)]
    rw [region, region, List.drop_take, List.take_take]
    congr 1
    omega
  · unfold Field.stop at *
    rw [region_append_right (by omega), hle, region_append_right (by omega), region, region,
      List.drop_drop]
    congr 2
    omega

theorem region_puts_of_apart {fs : List Field} {buf : List UInt8} {offset n : Nat}
    (h : ∀ f ∈ fs, f.stop ≤ buf.length)
    (hapart : ∀ f ∈ fs, offset + n ≤ f.offset ∨ f.stop ≤ offset) :
    region (puts fs buf) offset n = region buf offset n := by
  induction fs generalizing buf with
  | nil => rfl
  | cons f fs ih =>
    have hf := h f List.mem_cons_self
    rw [puts, ih]
    · exact region_put_of_apart hf (hapart f List.mem_cons_self)
    · intro g hg
      rw [length_put hf]
      exact h g (List.mem_cons_of_mem _ hg)
    · exact fun g hg => hapart g (List.mem_cons_of_mem _ hg)

/-- **Fields apart from each other all read back.** -/
theorem region_puts {fs : List Field} {buf : List UInt8} {f : Field} (hf : f ∈ fs)
    (h : ∀ f ∈ fs, f.stop ≤ buf.length) (hapart : fs.Pairwise Field.Apart) :
    region (puts fs buf) f.offset f.bytes.length = f.bytes := by
  induction fs generalizing buf with
  | nil => exact absurd hf List.not_mem_nil
  | cons g fs ih =>
    have hg := h g List.mem_cons_self
    have hrest : ∀ f ∈ fs, f.stop ≤ (put g buf).length := by
      intro f hf
      rw [length_put hg]
      exact h f (List.mem_cons_of_mem _ hf)
    rw [List.pairwise_cons] at hapart
    rw [puts]
    rcases List.mem_cons.mp hf with rfl | hf
    · rw [region_puts_of_apart hrest]
      · exact region_put_self hg
      · exact fun x hx => hapart.1 x hx
    · exact ih hf hrest hapart.2

/-- A number that was written reads back. -/
theorem word_put_self {buf : List UInt8} {w offset n : Nat} (h : offset + w ≤ buf.length)
    (hn : n < 256 ^ w) : word w (put ⟨offset, leBytes w n⟩ buf) offset = n := by
  have hstop : (⟨offset, leBytes w n⟩ : Field).stop ≤ buf.length := by
    unfold Field.stop
    rw [length_leBytes]
    exact h
  have hregion := region_put_self hstop
  rw [length_leBytes] at hregion
  rw [word_eq_region, hregion, word_leBytes hn]

/-- A number outside the field stays. -/
theorem word_put_of_apart {f : Field} {buf : List UInt8} {w offset : Nat} (h : f.stop ≤ buf.length)
    (hapart : offset + w ≤ f.offset ∨ f.stop ≤ offset) :
    word w (put f buf) offset = word w buf offset := by
  rw [word_eq_region, region_put_of_apart h hapart, ← word_eq_region]

/-- A number in a field reads back. -/
theorem word_puts {fs : List Field} {buf : List UInt8} {w offset n : Nat}
    (hf : (⟨offset, leBytes w n⟩ : Field) ∈ fs) (h : ∀ f ∈ fs, f.stop ≤ buf.length)
    (hapart : fs.Pairwise Field.Apart) (hn : n < 256 ^ w) : word w (puts fs buf) offset = n := by
  have hregion := region_puts hf h hapart
  rw [length_leBytes] at hregion
  rw [word_eq_region, hregion, word_leBytes hn]

end Buffer
