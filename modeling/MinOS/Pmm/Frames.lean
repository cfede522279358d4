/-
# MinOS.Pmm.Frames — what each function of `pmm.c` does to the set of marked frames.

A bitmap stands for the finite set `used` of frame numbers whose bit is set. Every function of the
source is described here by its effect on that set, on `total_frames` and on `balance`, the sum of
`free_frames` and the number of marked frames: the counter moves exactly when a bit does, so after
`pmm_init` has counted the conventional frames no function changes the balance. Later modules cite these
lemmas and do not look at words or bits again.
-/
import MinOS.Lib.Word
import MinOS.Pmm.Model

namespace MinOS.Pmm

open MinOS.Boot
open Machine (forRange forRange_runs forRange_carries bind_eq_ok_iff ok_bind)

/-! ## The set of marked frames -/

theorem pmmMaxFrames_eq : pmmMaxFrames = 16777216 := rfl

theorem pmmBitmapWords_eq : pmmBitmapWords = 262144 := rfl

/-- The frames whose bit is set -/
def State.used (s : State) : Finset Nat := Bitmap.support s.bitmap pmmMaxFrames

/-- `free_frames` and the marked frames together -/
def State.balance (s : State) : UInt64 := s.freeFrames + UInt64.ofNat s.used.card

/-- `bitmap[f >> 6] |= 1 << (f & 63)` -/
def State.mark (s : State) (f : Nat) : State := { s with bitmap := Bitmap.insert s.bitmap f }

/-- `bitmap[f >> 6] &= ~(1 << (f & 63))` -/
def State.unmark (s : State) (f : Nat) : State := { s with bitmap := Bitmap.erase s.bitmap f }

/-- Mark a frame and count it off. -/
def State.take (s : State) (f : Nat) : State := { s.mark f with freeFrames := s.freeFrames - 1 }

/-- Unmark a frame and count it back. -/
def State.give (s : State) (f : Nat) : State := { s.unmark f with freeFrames := s.freeFrames + 1 }

theorem lt_of_mem_used {s : State} {f : Nat} (h : f ∈ s.used) : f < pmmMaxFrames :=
  ((Bitmap.mem_support s.bitmap f pmmMaxFrames).mp h).1

theorem mem_used_iff {s : State} {f : Nat} (hf : f < pmmMaxFrames) :
    f ∈ s.used ↔ Bitmap.mem s.bitmap f = true := by
  rw [State.used, Bitmap.mem_support]
  exact and_iff_right hf

@[simp] theorem used_zero : State.zero.used = ∅ := Bitmap.support_zero

theorem used_mark {s : State} {f : Nat} (hf : f < pmmMaxFrames) :
    (s.mark f).used = insert f s.used :=
  Bitmap.support_insert s.bitmap (by decide) hf

theorem used_unmark (s : State) (f : Nat) : (s.unmark f).used = s.used.erase f :=
  Bitmap.support_erase s.bitmap (by decide)

theorem used_take {s : State} {f : Nat} (hf : f < pmmMaxFrames) :
    (s.take f).used = insert f s.used := used_mark hf

theorem used_give (s : State) (f : Nat) : (s.give f).used = s.used.erase f := used_unmark s f

theorem ofNat_succ (n : Nat) : UInt64.ofNat (n + 1) = UInt64.ofNat n + 1 := by
  rw [UInt64.ofNat_add]
  rfl

theorem balance_take {s : State} {f : Nat} (hf : f < pmmMaxFrames) (hfree : f ∉ s.used) :
    (s.take f).balance = s.balance := by
  simp only [State.balance, used_take hf, Finset.card_insert_of_notMem hfree, ofNat_succ]
  simp only [State.take]
  grind

theorem balance_give {s : State} {f : Nat} (hused : f ∈ s.used) : (s.give f).balance = s.balance := by
  have hcard : s.used.card = (s.used.erase f).card + 1 := by
    rw [Finset.card_erase_of_mem hused]
    have : 0 < s.used.card := Finset.card_pos.mpr ⟨f, hused⟩
    omega
  simp only [State.balance, used_give, hcard, ofNat_succ]
  simp only [State.give]
  grind

/-! ## `bitmap_test`, `bitmap_set`, `bitmap_clear` -/

theorem shiftRight_six (f : Nat) : f >>> 6 = f / 64 := Nat.shiftRight_eq_div_pow f 6

theorem and_sixtyThree (f : Nat) : f &&& 63 = f % 64 := Nat.and_two_pow_sub_one_eq_mod f 6

/-- Shifting a bit to the bottom and masking the rest tests it. -/
theorem shiftRight_and_one (x : BitVec 64) (k : Nat) : (x >>> k &&& 1#64 != 0#64) = x.getLsbD k := by
  have hone : x >>> k &&& 1#64 = if x.getLsbD k then 1#64 else 0#64 := by
    apply BitVec.eq_of_getLsbD_eq
    intro i hi
    rw [BitVec.getLsbD_and, BitVec.getLsbD_ushiftRight, BitVec.getLsbD_one]
    by_cases h0 : i = 0
    · subst h0
      rw [Nat.add_zero]
      cases x.getLsbD k <;> simp
    · cases x.getLsbD k <;> simp [h0]
  rw [hone]
  cases x.getLsbD k <;> rfl

theorem word_index_lt {f : Nat} (hf : f < pmmMaxFrames) : f / 64 < pmmBitmapWords := by
  rw [pmmMaxFrames_eq] at hf
  rw [pmmBitmapWords_eq]
  omega

variable {s s' : State} {f : Nat}

theorem bitmapTest_eq (hf : f < pmmMaxFrames) : bitmapTest s f = .ok (decide (f ∈ s.used)) := by
  have hmem : decide (f ∈ s.used) = Bitmap.mem s.bitmap f := by
    cases hb : Bitmap.mem s.bitmap f <;> simp [State.used, hb, hf]
  simp only [bitmapTest, word, shiftRight_six, and_sixtyThree, word_index_lt hf, if_true, ok_bind,
    shiftRight_and_one, hmem]
  rfl

theorem bitmapSet_eq (hf : f < pmmMaxFrames) : bitmapSet s f = .ok (s.mark f) := by
  simp only [bitmapSet, word, setWord, shiftRight_six, and_sixtyThree, word_index_lt hf, if_true,
    ok_bind]
  rfl

theorem bitmapClear_eq (hf : f < pmmMaxFrames) : bitmapClear s f = .ok (s.unmark f) := by
  simp only [bitmapClear, word, setWord, shiftRight_six, and_sixtyThree, word_index_lt hf, if_true,
    ok_bind]
  rfl

/-- A test that returned was made inside the bitmap. -/
theorem lt_of_bitmapTest {r : Bool} (h : bitmapTest s f = .ok r) : f < pmmMaxFrames := by
  by_contra hge
  have hword : ¬ f / 64 < pmmBitmapWords := by
    rw [pmmMaxFrames_eq] at hge
    rw [pmmBitmapWords_eq]
    omega
  simp [bitmapTest, word, shiftRight_six, hword, bind, Except.bind] at h

theorem used_congr (h : s.bitmap = s'.bitmap) : s.used = s'.used := by
  rw [State.used, State.used, h]

-- Unfolding `used` evaluates 2^24 bits; from here on the lemmas above stand for it.
attribute [irreducible] State.used

/-! ## Ranges -/

/-- `t` is `s` with the frames `A` marked and counted off. -/
structure Takes (s t : State) (A : Finset Nat) : Prop where
  used : t.used = s.used ∪ A
  balance : t.balance = s.balance
  totalFrames : t.totalFrames = s.totalFrames

theorem Takes.refl (s : State) : Takes s s ∅ := ⟨by simp, rfl, rfl⟩

theorem Takes.trans {s t u : State} {A B : Finset Nat} (h : Takes s t A) (h' : Takes t u B) :
    Takes s u (A ∪ B) :=
  ⟨by rw [h'.used, h.used, Finset.union_assoc], h'.balance.trans h.balance,
    h'.totalFrames.trans h.totalFrames⟩

/-- The count of reserved bytes is no part of it. -/
theorem Takes.withReserved {s t : State} {A : Finset Nat} (h : Takes s t A) (n : UInt64) :
    Takes s { t with reservedBytesTotal := n } A := by
  have hused : ({ t with reservedBytesTotal := n } : State).used = t.used := used_congr rfl
  exact ⟨hused.trans h.used, by simp only [State.balance, hused]; exact h.balance, h.totalFrames⟩

theorem takes_take (hf : f < pmmMaxFrames) (hfree : f ∉ s.used) : Takes s (s.take f) {f} :=
  ⟨by rw [used_take hf, Finset.union_comm, Finset.insert_eq], balance_take hf hfree, rfl⟩

theorem Ico_succ {a i : Nat} (h : a ≤ i) : Finset.Ico a (i + 1) = insert i (Finset.Ico a i) := by
  ext g
  simp only [Finset.mem_Ico, Finset.mem_insert]
  omega

/-- The frames `start`, …, `stop - 1` -/
def frameRange (start stop : UInt64) : Finset Nat := Finset.Ico start.toNat stop.toNat

/-- A range that `reserve_range` can walk without leaving the bitmap. -/
def RangeInBitmap (start stop : UInt64) : Prop := start < stop → stop.toNat ≤ pmmMaxFrames

theorem reserveFrame_takes (hf : f < pmmMaxFrames) :
    ∃ s', reserveFrame f s = .ok s' ∧ Takes s s' {f} := by
  by_cases hused : f ∈ s.used
  · refine ⟨s, ?_, ⟨?_, rfl, rfl⟩⟩
    · simp [reserveFrame, bitmapTest_eq hf, hused]
    · rw [Finset.union_comm, ← Finset.insert_eq, Finset.insert_eq_of_mem hused]
  · refine ⟨s.take f, ?_, takes_take hf hused⟩
    simp [reserveFrame, bitmapTest_eq hf, hused, bitmapSet_eq hf]
    rfl

theorem reserveRange_takes {start stop : UInt64} (h : RangeInBitmap start stop) :
    ∃ s', reserveRange start stop s = .ok s' ∧ Takes s s' (frameRange start stop) := by
  by_cases hlt : start < stop
  · have hlt' : start.toNat < stop.toNat := UInt64.lt_iff_toNat_lt.mp hlt
    have hmax := h hlt
    -- After the frames below `i` the state has taken exactly those.
    obtain ⟨t, ht, htakes⟩ := forRange_runs reserveFrame
      (fun i t => start.toNat ≤ i ∧ Takes s t (Finset.Ico start.toNat i)) stop.toNat
      (by
        rintro i t hi ⟨hstart, htakes⟩
        obtain ⟨u, hu, hone⟩ := reserveFrame_takes (s := t) (f := i) (by omega)
        refine ⟨u, hu, by omega, ?_⟩
        rw [Ico_succ hstart, Finset.insert_eq, Finset.union_comm]
        exact htakes.trans hone)
      (stop.toNat - start.toNat) start.toNat s (by omega) ⟨le_refl _, by simpa using Takes.refl s⟩
    refine ⟨_, ?_, htakes.2.withReserved (t.reservedBytesTotal + (stop - start) * 4096)⟩
    simp [reserveRange, ht]
  · have hle : stop.toNat ≤ start.toNat := by
      rw [UInt64.lt_iff_toNat_lt] at hlt
      omega
    have hempty : frameRange start stop = ∅ := Finset.Ico_eq_empty_of_le hle
    rw [hempty]
    refine ⟨_, ?_, (Takes.refl s).withReserved (s.reservedBytesTotal + (stop - start) * 4096)⟩
    simp [reserveRange, Nat.sub_eq_zero_of_le hle, forRange]

/-- A `reserve_range` that returned stayed inside the bitmap. -/
theorem rangeInBitmap_of_reserveRange {start stop : UInt64} (h : reserveRange start stop s = .ok s') :
    RangeInBitmap start stop := by
  intro hlt
  rw [UInt64.lt_iff_toNat_lt] at hlt
  obtain ⟨t, ht, -⟩ := bind_eq_ok_iff.mp h
  have hlast := forRange_carries reserveFrame (fun i _ => start.toNat < i → i ≤ pmmMaxFrames) stop.toNat
    (by
      intro i t t' _ _ hbody _
      obtain ⟨r, hr, -⟩ := bind_eq_ok_iff.mp hbody
      exact lt_of_bitmapTest hr)
    (stop.toNat - start.toNat) start.toNat s t (by omega) (fun habs => absurd habs (lt_irrefl _)) ht
  exact hlast hlt

/-! ## Allocation -/

/-- The address of frame `f` -/
def frameAddress (f : Nat) : UInt64 := UInt64.ofNat f * 4096

theorem toNat_frameAddress (hf : f < pmmMaxFrames) : (frameAddress f).toNat = f * 4096 := by
  rw [pmmMaxFrames_eq] at hf
  rw [frameAddress, UInt64.toNat_mul, UInt64.toNat_ofNat']
  have h4096 : (4096 : UInt64).toNat = 4096 := rfl
  rw [h4096]
  omega

/-- What an allocation of `n` consecutive frames may return: nothing, or the first frame of a run of
`n` unmarked frames between 1 and `total_frames`, which it marks. -/
inductive Grant (s : State) (n : Nat) : UInt64 → State → Prop
  | refused : Grant s n 0 s
  | granted {f : Nat} {t : State} (hn : 1 ≤ n) (hpos : 1 ≤ f) (htotal : f + n ≤ s.totalFrames.toNat)
      (hmax : f + n ≤ pmmMaxFrames) (hfree : ∀ g, f ≤ g → g < f + n → g ∉ s.used)
      (htakes : Takes s t (Finset.Ico f (f + n))) : Grant s n (frameAddress f) t

theorem Grant.totalFrames {n : Nat} {a : UInt64} (h : Grant s n a s') :
    s'.totalFrames = s.totalFrames := by
  cases h with
  | refused => rfl
  | granted _ _ _ _ _ htakes => exact htakes.totalFrames

/-- First fit: the frame granted is the lowest unmarked one, and a refusal means there is none. -/
theorem allocFrameFrom_cases {a : UInt64} :
    ∀ (count f : Nat), allocFrameFrom count f s = .ok (a, s') →
      (a = 0 ∧ s' = s ∧ ∀ g, f ≤ g → g < f + count → g ∈ s.used) ∨
      ∃ g, f ≤ g ∧ g < f + count ∧ g < pmmMaxFrames ∧ g ∉ s.used ∧
        (∀ h, f ≤ h → h < g → h ∈ s.used) ∧ a = frameAddress g ∧ s' = s.take g := by
  intro count
  induction count with
  | zero =>
    intro f h
    cases h
    exact Or.inl ⟨rfl, rfl, fun g _ _ => by omega⟩
  | succ count ih =>
    intro f h
    obtain ⟨r, hr, hrest⟩ := bind_eq_ok_iff.mp h
    have hf := lt_of_bitmapTest hr
    rw [bitmapTest_eq hf] at hr
    obtain rfl := Except.ok.inj hr
    -- A marked frame joins those below the result; an unmarked one is the result.
    by_cases hused : f ∈ s.used
    · rw [if_pos (by simpa using hused)] at hrest
      rcases ih (f + 1) hrest with ⟨ha, hs, hall⟩ | ⟨g, hfg, hlt, hmax, hfree, hbelow, ha, hs⟩
      · refine Or.inl ⟨ha, hs, fun g hg hlt => ?_⟩
        rcases Nat.eq_or_lt_of_le hg with rfl | hg
        · exact hused
        · exact hall g hg (by omega)
      · refine Or.inr ⟨g, by omega, by omega, hmax, hfree, fun h hh hlt => ?_, ha, hs⟩
        rcases Nat.eq_or_lt_of_le hh with rfl | hh
        · exact hused
        · exact hbelow h hh hlt
    · rw [if_neg (by simpa using hused), bitmapSet_eq hf] at hrest
      cases hrest
      exact Or.inr ⟨f, le_refl _, by omega, hf, hused, fun h hh hlt => by omega, rfl, rfl⟩

theorem allocFrameFrom_runs :
    ∀ (count f : Nat), f + count ≤ pmmMaxFrames → ∃ r, allocFrameFrom count f s = .ok r := by
  intro count
  induction count with
  | zero => intro f _; exact ⟨_, rfl⟩
  | succ count ih =>
    intro f hmax
    have hf : f < pmmMaxFrames := by omega
    by_cases hused : f ∈ s.used
    · obtain ⟨r, hr⟩ := ih (f + 1) (by omega)
      exact ⟨r, by simp [allocFrameFrom, bitmapTest_eq hf, hused, hr]⟩
    · exact ⟨_, by simp only [allocFrameFrom, bitmapTest_eq hf, hused, bitmapSet_eq hf, ok_bind]; rfl⟩

/-- A scan with an unmarked frame of the bitmap ahead of it returns, wherever it would have ended. -/
theorem allocFrameFrom_runs_of_free {k : Nat} (hk : k < pmmMaxFrames) (hfree : k ∉ s.used) :
    ∀ (count f : Nat), f ≤ k → k < f + count → ∃ r, allocFrameFrom count f s = .ok r := by
  intro count
  induction count with
  | zero => intro f hle hlt; omega
  | succ count ih =>
    intro f hle hlt
    have hf : f < pmmMaxFrames := by omega
    by_cases hused : f ∈ s.used
    · have hne : f ≠ k := fun heq => hfree (heq ▸ hused)
      obtain ⟨r, hr⟩ := ih (f + 1) (by omega) (by omega)
      exact ⟨r, by simp [allocFrameFrom, bitmapTest_eq hf, hused, hr]⟩
    · exact ⟨_, by simp only [allocFrameFrom, bitmapTest_eq hf, hused, bitmapSet_eq hf, ok_bind]; rfl⟩

/-- `pmm_alloc_frame`, read off: nothing left below `total_frames`, or the lowest unmarked frame. -/
theorem pmmAllocFrame_cases {a : UInt64} (h : pmmAllocFrame s = .ok (a, s')) :
    (a = 0 ∧ s' = s ∧ ∀ g, 1 ≤ g → g < s.totalFrames.toNat → g ∈ s.used) ∨
      ∃ g, 1 ≤ g ∧ g < s.totalFrames.toNat ∧ g < pmmMaxFrames ∧ g ∉ s.used ∧
        (∀ h, 1 ≤ h → h < g → h ∈ s.used) ∧ a = frameAddress g ∧ s' = s.take g := by
  rcases allocFrameFrom_cases _ _ h with ⟨ha, hs, hall⟩ | ⟨g, hpos, hlt, hrest⟩
  · exact Or.inl ⟨ha, hs, fun g hg hlt => hall g hg (by omega)⟩
  · exact Or.inr ⟨g, hpos, by omega, hrest⟩

/-- First fit: with every frame below an unmarked `k` marked, `k` is what is granted. -/
theorem pmmAllocFrame_lowest {a : UInt64} {k : Nat} (h : pmmAllocFrame s = .ok (a, s')) (hpos : 1 ≤ k)
    (hlt : k < s.totalFrames.toNat) (hfree : k ∉ s.used) (hbelow : ∀ g, 1 ≤ g → g < k → g ∈ s.used) :
    a = frameAddress k ∧ k < pmmMaxFrames ∧ s' = s.take k := by
  rcases pmmAllocFrame_cases h with ⟨-, -, hall⟩ | ⟨g, hg, -, hmax, hgfree, hlow, rfl, rfl⟩
  · exact absurd (hall k hpos hlt) hfree
  · rcases Nat.lt_trichotomy g k with hgk | rfl | hgk
    · exact absurd (hbelow g hg hgk) hgfree
    · exact ⟨rfl, hmax, rfl⟩
    · exact absurd (hlow k hpos hgk) hfree

theorem Ico_succ_singleton (g : Nat) : Finset.Ico g (g + 1) = {g} := by
  rw [Ico_succ (le_refl g), Finset.Ico_self]
  rfl

theorem pmmAllocFrame_grant {a : UInt64} (h : pmmAllocFrame s = .ok (a, s')) : Grant s 1 a s' := by
  rcases pmmAllocFrame_cases h with ⟨rfl, rfl, -⟩ | ⟨g, hpos, hlt, hmax, hfree, -, rfl, rfl⟩
  · exact .refused
  · apply Grant.granted (le_refl 1) hpos hlt hmax
    · intro h hle hlt
      obtain rfl : h = g := by omega
      exact hfree
    · rw [Ico_succ_singleton]
      exact takes_take hmax hfree

theorem pmmAllocFrame_runs (h : s.totalFrames.toNat ≤ pmmMaxFrames) :
    ∃ a s', pmmAllocFrame s = .ok (a, s') := by
  obtain ⟨⟨a, s'⟩, hr⟩ := allocFrameFrom_runs (s := s) (s.totalFrames.toNat - 1) 1
    (by rw [pmmMaxFrames_eq] at *; omega)
  exact ⟨a, s', hr⟩

theorem pmmAllocFrame_runs_of_free {k : Nat} (hpos : 1 ≤ k) (hlt : k < s.totalFrames.toNat)
    (hmax : k < pmmMaxFrames) (hfree : k ∉ s.used) : ∃ a s', pmmAllocFrame s = .ok (a, s') := by
  obtain ⟨⟨a, s'⟩, hr⟩ :=
    allocFrameFrom_runs_of_free hmax hfree (s.totalFrames.toNat - 1) 1 hpos (by omega)
  exact ⟨a, s', hr⟩

/-! ## Allocation of several frames -/

theorem rangeIsClear_runs :
    ∀ (count f : Nat), f + count ≤ pmmMaxFrames →
      ∃ r, rangeIsClear s count f = .ok r ∧
        (r = true ↔ ∀ g, f ≤ g → g < f + count → g ∉ s.used) := by
  intro count
  induction count with
  | zero =>
    intro f _
    exact ⟨true, rfl, fun _ g _ hlt => by omega, fun _ => rfl⟩
  | succ count ih =>
    intro f hmax
    have hf : f < pmmMaxFrames := by omega
    by_cases hused : f ∈ s.used
    · refine ⟨false, by simp [rangeIsClear, bitmapTest_eq hf, hused], ?_⟩
      exact ⟨fun h => absurd h (by decide), fun h => absurd hused (h f (le_refl _) (by omega))⟩
    · obtain ⟨r, hr, hiff⟩ := ih (f + 1) (by omega)
      refine ⟨r, by simp [rangeIsClear, bitmapTest_eq hf, hused, hr], hiff.trans ⟨?_, ?_⟩⟩
      · intro h g hg hlt
        rcases Nat.eq_or_lt_of_le hg with rfl | hg
        · exact hused
        · exact h g hg (by omega)
      · intro h g hg hlt
        exact h g (by omega) (by omega)

/-- A scan that found the range clear stayed inside the bitmap. -/
theorem rangeIsClear_true :
    ∀ (count f : Nat), rangeIsClear s count f = .ok true → count = 0 ∨ f + count ≤ pmmMaxFrames := by
  intro count
  induction count with
  | zero => intro f _; exact Or.inl rfl
  | succ count ih =>
    intro f h
    obtain ⟨r, hr, hrest⟩ := bind_eq_ok_iff.mp h
    have hf := lt_of_bitmapTest hr
    cases r with
    | true => cases hrest
    | false =>
      rcases ih (f + 1) hrest with rfl | hmax
      · exact Or.inr hf
      · exact Or.inr (by omega)

/-- Marking `count` clear frames and subtracting `count` from the counter takes them. -/
theorem markRange_takes {count : UInt32} (hmax : f + count.toNat ≤ pmmMaxFrames)
    (hfree : ∀ g, f ≤ g → g < f + count.toNat → g ∉ s.used) :
    ∃ t, forRange (fun g t => bitmapSet t g) count.toNat f s = .ok t ∧
      Takes s { t with freeFrames := t.freeFrames - count.toUInt64 }
        (Finset.Ico f (f + count.toNat)) := by
  -- While the loop runs only bits change: the counter follows in one subtraction at the end.
  obtain ⟨t, ht, -, hused, hcount, htotal⟩ := forRange_runs (fun g t => bitmapSet t g)
    (fun i t => f ≤ i ∧ t.used = s.used ∪ Finset.Ico f i ∧ t.freeFrames = s.freeFrames ∧
      t.totalFrames = s.totalFrames) (f + count.toNat)
    (by
      rintro i t hi ⟨hfi, hused, hcount, htotal⟩
      have hi' : i < pmmMaxFrames := by omega
      refine ⟨t.mark i, bitmapSet_eq hi', by omega, ?_, hcount, htotal⟩
      rw [used_mark hi', hused, Ico_succ hfi, Finset.union_insert])
    count.toNat f s rfl ⟨le_refl _, by simp, rfl, rfl⟩
  have hsame : ({ t with freeFrames := t.freeFrames - count.toUInt64 } : State).used = t.used :=
    used_congr rfl
  have hused' := hsame.trans hused
  have hdisjoint : Disjoint s.used (Finset.Ico f (f + count.toNat)) := by
    rw [Finset.disjoint_right]
    intro g hg
    rw [Finset.mem_Ico] at hg
    exact hfree g hg.1 hg.2
  refine ⟨t, ht, hused', ?_, htotal⟩
  rw [State.balance, State.balance, hused', Finset.card_union_of_disjoint hdisjoint, Nat.card_Ico,
    Nat.add_sub_cancel_left, UInt64.ofNat_add, UInt64.ofNat_uInt32ToNat]
  simp only [hcount]
  grind

theorem allocFramesFrom_grant {a : UInt64} {count : UInt32} (hcount : count ≠ 0) :
    ∀ (fuel f : Nat), 1 ≤ f → allocFramesFrom count fuel f s = .ok (a, s') →
      Grant s count.toNat a s' := by
  have hpos : 0 < count.toNat := by
    rcases Nat.eq_zero_or_pos count.toNat with h0 | hpos
    · exact absurd (UInt32.toNat_inj.mp h0) hcount
    · exact hpos
  intro fuel
  induction fuel with
  | zero =>
    intro f _ h
    cases h
    exact .refused
  | succ fuel ih =>
    intro f hf h
    by_cases hguard : (f + count.toNat) % 2 ^ 64 ≤ s.totalFrames.toNat
    · rw [allocFramesFrom, if_pos hguard] at h
      obtain ⟨r, hr, hrest⟩ := bind_eq_ok_iff.mp h
      cases r with
      | false => exact ih (f + 1) (by omega) hrest
      | true =>
        -- The scan visited the whole range, so it lies in the bitmap and `f + count` did not wrap.
        rcases rangeIsClear_true _ _ hr with h0 | hmax
        · omega
        obtain ⟨r', hr', hiff⟩ := rangeIsClear_runs (s := s) _ _ hmax
        obtain rfl := Except.ok.inj (hr.symm.trans hr')
        have hfree := hiff.mp rfl
        obtain ⟨t, ht, htakes⟩ := markRange_takes hmax hfree
        rw [if_pos rfl, ht] at hrest
        cases hrest
        refine .granted hpos hf ?_ hmax hfree htakes
        rw [pmmMaxFrames_eq] at hmax
        omega
    · rw [allocFramesFrom, if_neg hguard] at h
      cases h
      exact .refused

theorem pmmAllocFrames_grant {a : UInt64} {count : UInt32} (h : pmmAllocFrames count s = .ok (a, s')) :
    Grant s count.toNat a s' := by
  by_cases hcount : count = 0
  · rw [pmmAllocFrames, if_pos hcount] at h
    cases h
    exact .refused
  · rw [pmmAllocFrames, if_neg hcount] at h
    exact allocFramesFrom_grant hcount _ 1 (le_refl _) h

theorem allocFramesFrom_runs (count : UInt32) (htotal : s.totalFrames.toNat ≤ pmmMaxFrames) :
    ∀ (fuel f : Nat), f + fuel ≤ s.totalFrames.toNat + 1 →
      ∃ r, allocFramesFrom count fuel f s = .ok r := by
  intro fuel
  induction fuel with
  | zero => intro f _; exact ⟨_, rfl⟩
  | succ fuel ih =>
    intro f hf
    have hcount := count.toNat_lt
    rw [pmmMaxFrames_eq] at htotal
    -- Within the guard the scan stays below `total_frames`, hence inside the bitmap.
    by_cases hguard : (f + count.toNat) % 2 ^ 64 ≤ s.totalFrames.toNat
    · have hmax : f + count.toNat ≤ pmmMaxFrames := by
        rw [pmmMaxFrames_eq]
        omega
      obtain ⟨r, hr, hiff⟩ := rangeIsClear_runs (s := s) _ _ hmax
      cases r with
      | false =>
        obtain ⟨r, hrest⟩ := ih (f + 1) (by omega)
        exact ⟨r, by rw [allocFramesFrom, if_pos hguard, hr]; exact hrest⟩
      | true =>
        obtain ⟨t, ht, -⟩ := markRange_takes hmax (hiff.mp rfl)
        exact ⟨_, by rw [allocFramesFrom, if_pos hguard, hr, ok_bind, if_pos rfl, ht]; rfl⟩
    · exact ⟨_, by rw [allocFramesFrom, if_neg hguard]⟩

theorem pmmAllocFrames_runs (count : UInt32) (h : s.totalFrames.toNat ≤ pmmMaxFrames) :
    ∃ a s', pmmAllocFrames count s = .ok (a, s') := by
  by_cases hcount : count = 0
  · exact ⟨0, s, by rw [pmmAllocFrames, if_pos hcount]⟩
  · obtain ⟨⟨a, s'⟩, hr⟩ := allocFramesFrom_runs count h s.totalFrames.toNat 1 (by omega)
    exact ⟨a, s', by rw [pmmAllocFrames, if_neg hcount, hr]⟩

/-! ## `pmm_free_frame` and `pmm_is_available` -/

theorem frameAddress_ne_zero (hpos : 1 ≤ f) (hf : f < pmmMaxFrames) : frameAddress f ≠ 0 := by
  intro h0
  have hnat := toNat_frameAddress hf
  rw [h0, UInt64.toNat_zero] at hnat
  omega

theorem frameAddress_aligned (hf : f < pmmMaxFrames) : frameAddress f &&& 4095 = 0 := by
  apply UInt64.toNat_inj.mp
  rw [Word.toNat_and_low (k := 12) _ _ rfl, toNat_frameAddress hf, UInt64.toNat_zero]
  omega

theorem toNat_frameAddress_div (hf : f < pmmMaxFrames) : (frameAddress f / 4096).toNat = f := by
  have h4096 : (4096 : UInt64).toNat = 4096 := rfl
  rw [UInt64.toNat_div, toNat_frameAddress hf, h4096, Nat.mul_div_cancel _ (by decide)]

theorem frameAddress_passes (hpos : 1 ≤ f) (hf : f < pmmMaxFrames) :
    ¬ (frameAddress f = 0 ∨ frameAddress f &&& 4095 ≠ 0) := by
  rintro (h0 | hmask)
  · exact frameAddress_ne_zero hpos hf h0
  · exact hmask (frameAddress_aligned hf)

/-- `pmm_free_frame` past its three guards -/
theorem pmmFreeFrame_passed {frame : UInt64} (hguard : ¬ (frame = 0 ∨ frame &&& 4095 ≠ 0))
    (hlt : frame / 4096 < s.totalFrames) (hf : (frame / 4096).toNat < pmmMaxFrames) :
    pmmFreeFrame frame s =
      .ok (if (frame / 4096).toNat ∈ s.used then s.give (frame / 4096).toNat else s) := by
  rw [pmmFreeFrame, if_neg hguard]
  show (if frame / 4096 < s.totalFrames then _ else _) = _
  rw [if_pos hlt, bitmapTest_eq hf, ok_bind, bitmapClear_eq hf]
  by_cases hused : (frame / 4096).toNat ∈ s.used
  · rw [if_pos hused, if_pos (decide_eq_true hused)]
    rfl
  · rw [if_neg hused, if_neg (fun h => hused (of_decide_eq_true h))]

theorem pmmFreeFrame_beyond {frame : UInt64} (hlt : ¬ frame / 4096 < s.totalFrames) :
    pmmFreeFrame frame s = .ok s := by
  rw [pmmFreeFrame]
  split
  · rfl
  · show (if frame / 4096 < s.totalFrames then _ else _) = _
    rw [if_neg hlt]

/-- `pmm_free_frame` on the address of a frame: a marked frame below `total_frames` is given back. -/
theorem pmmFreeFrame_eq (hpos : 1 ≤ f) (hf : f < pmmMaxFrames) :
    pmmFreeFrame (frameAddress f) s =
      .ok (if f < s.totalFrames.toNat ∧ f ∈ s.used then s.give f else s) := by
  have hdiv := toNat_frameAddress_div hf
  have hlt : frameAddress f / 4096 < s.totalFrames ↔ f < s.totalFrames.toNat := by
    rw [UInt64.lt_iff_toNat_lt, hdiv]
  by_cases htotal : f < s.totalFrames.toNat
  · rw [pmmFreeFrame_passed (frameAddress_passes hpos hf) (hlt.mpr htotal) (by rwa [hdiv]), hdiv]
    by_cases hused : f ∈ s.used
    · rw [if_pos hused, if_pos ⟨htotal, hused⟩]
    · rw [if_neg hused, if_neg (fun h => hused h.2)]
  · rw [pmmFreeFrame_beyond (fun h => htotal (hlt.mp h)), if_neg (fun h => htotal h.1)]

theorem toNat_div_lt {frame : UInt64} (h : frame / 4096 < s.totalFrames)
    (htotal : s.totalFrames.toNat ≤ pmmMaxFrames) : (frame / 4096).toNat < pmmMaxFrames := by
  rw [UInt64.lt_iff_toNat_lt] at h
  omega

theorem pmmFreeFrame_runs (frame : UInt64) (htotal : s.totalFrames.toNat ≤ pmmMaxFrames) :
    ∃ s', pmmFreeFrame frame s = .ok s' ∧ s'.totalFrames = s.totalFrames := by
  by_cases hguard : frame = 0 ∨ frame &&& 4095 ≠ 0
  · exact ⟨s, by rw [pmmFreeFrame, if_pos hguard], rfl⟩
  · by_cases hlt : frame / 4096 < s.totalFrames
    · refine ⟨_, pmmFreeFrame_passed hguard hlt (toNat_div_lt hlt htotal), ?_⟩
      split
      · rfl
      · rfl
    · exact ⟨s, pmmFreeFrame_beyond hlt, rfl⟩

theorem bitmapClear_totalFrames (h : bitmapClear s f = .ok s') : s'.totalFrames = s.totalFrames := by
  obtain ⟨old, -, hset⟩ := bind_eq_ok_iff.mp h
  rw [setWord] at hset
  split at hset
  · cases hset
    rfl
  · cases hset

/-- Whatever address is freed, `total_frames` stays. -/
theorem pmmFreeFrame_totalFrames {frame : UInt64} (h : pmmFreeFrame frame s = .ok s') :
    s'.totalFrames = s.totalFrames := by
  rw [pmmFreeFrame] at h
  split at h
  · cases h
    rfl
  · by_cases hlt : frame / 4096 < s.totalFrames
    · simp only [if_pos hlt] at h
      obtain ⟨r, -, h⟩ := bind_eq_ok_iff.mp h
      cases r with
      | true =>
        obtain ⟨t, ht, h⟩ := bind_eq_ok_iff.mp h
        have htotal := bitmapClear_totalFrames ht
        cases h
        exact htotal
      | false =>
        cases h
        rfl
    · simp only [if_neg hlt] at h
      cases h
      rfl

theorem pmmIsAvailable_runs (frame : UInt64) (htotal : s.totalFrames.toNat ≤ pmmMaxFrames) :
    ∃ r, pmmIsAvailable frame s = .ok r := by
  rw [pmmIsAvailable]
  split
  · exact ⟨false, rfl⟩
  · show ∃ r, (if frame / 4096 < s.totalFrames then _ else _) = _
    split
    · rename_i hlt
      rw [bitmapTest_eq (toNat_div_lt hlt htotal)]
      exact ⟨_, rfl⟩
    · exact ⟨false, rfl⟩

end MinOS.Pmm
