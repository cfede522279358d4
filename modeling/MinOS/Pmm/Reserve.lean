/-
# MinOS.Pmm.Reserve — which part of a reserved range can still be handed out.

`pmm_reserve` rounds both ends of the byte range up, so a range that starts inside a page leaves that page
as it was; `pmm_init` rounds the same start down. Its end is a 64-bit sum: when that wraps, no frame is
marked at all and the call still returns 0.

A later run only allocates. It returns the frames that the reservation left unmarked, and every one of them
in some run, so the question which reservations are safe comes down to the frames the rounding missed.
-/
import Mathlib.Algebra.Group.Nat.Defs
import MinOS.Pmm.FirstFit
import MinOS.Pmm.Runs

namespace MinOS.Pmm

open Machine (bind_eq_ok_iff ok_bind)

/-! ## Rounding -/

theorem toNat_4095 : (4095 : UInt64).toNat = 4095 := rfl

theorem toNat_4096 : (4096 : UInt64).toNat = 4096 := rfl

/-- The frame of a rounded address -/
theorem toNat_round_div (x : UInt64) : ((x &&& ~~~4095) / 4096).toNat = x.toNat / 4096 := by
  rw [UInt64.toNat_div, Word.toNat_and_not_low (k := 12) x 4095 rfl, toNat_4096]
  omega

/-- `s / 4096` in `pmm_reserve` -/
def reserveFirst (start : UInt64) : UInt64 := ((start + 4095) &&& ~~~4095) / 4096

/-- `e` in `pmm_reserve` -/
def reserveEnd (start size : UInt64) : UInt64 := (start + size + 4095) &&& ~~~4095

theorem toNat_reserveFirst (start : UInt64) :
    (reserveFirst start).toNat = (start.toNat + 4095) % 2 ^ 64 / 4096 := by
  rw [reserveFirst, toNat_round_div, UInt64.toNat_add, toNat_4095]

theorem toNat_reserveEnd_div (start size : UInt64) :
    (reserveEnd start size / 4096).toNat = (start.toNat + size.toNat + 4095) % 2 ^ 64 / 4096 := by
  rw [reserveEnd, toNat_round_div, UInt64.toNat_add, UInt64.toNat_add, toNat_4095, Nat.mod_add_mod]

/-- An end within `PMM_MAX_FRAMES` is a frame of the bitmap, or the one behind the last. -/
theorem reserveEnd_div_le {start size : UInt64} (h : ¬ reserveEnd start size > pmmMaxBytes) :
    (reserveEnd start size / 4096).toNat ≤ pmmMaxFrames := by
  have hmax : pmmMaxBytes.toNat = 68719476736 := rfl
  rw [gt_iff_lt, UInt64.lt_iff_toNat_lt, hmax] at h
  rw [pmmMaxFrames_eq, UInt64.toNat_div, toNat_4096]
  omega

/-- The call gives up. -/
def ReserveFails (start size : UInt64) : Prop := size = 0 ∨ reserveEnd start size > pmmMaxBytes

variable {s s' : State} {start size : UInt64} {f : Nat}

theorem pmmReserve_fails (h : ReserveFails start size) : pmmReserve start size s = .ok (-1, s) := by
  rw [pmmReserve]
  by_cases hsize : size = 0
  · rw [if_pos hsize]
  · rw [if_neg hsize]
    exact if_pos (h.resolve_left hsize)

/-- A reservation that is not refused marks the frames between the rounded ends. -/
theorem pmmReserve_takes (h : ¬ ReserveFails start size) :
    ∃ s', pmmReserve start size s = .ok (0, s') ∧
      Takes s s' (frameRange (reserveFirst start) (reserveEnd start size / 4096)) := by
  obtain ⟨hsize, hend⟩ := not_or.mp h
  have hin : RangeInBitmap (reserveFirst start) (reserveEnd start size / 4096) :=
    fun _ => reserveEnd_div_le hend
  obtain ⟨s', hs', htakes⟩ := reserveRange_takes (s := s) hin
  refine ⟨s', ?_, htakes⟩
  rw [pmmReserve, if_neg hsize]
  show (if reserveEnd start size > pmmMaxBytes then _ else _) = _
  rw [if_neg hend]
  show (reserveRange (reserveFirst start) (reserveEnd start size / 4096) s >>= _) = _
  rw [hs']
  rfl

/-! ## Runs without frees -/

/-- Nothing is freed. -/
def noFrees : Ledger → UInt64 → Prop := fun _ _ => False

/-- Frame `f` can be handed out. -/
structure Available (s : State) (f : Nat) : Prop where
  pos : 1 ≤ f
  total : f < s.totalFrames.toNat
  inBitmap : f < pmmMaxFrames
  clear : f ∉ s.used

/-- The frames that runs without frees return are the available ones. -/
theorem exists_returned_iff : (∃ t l, Run noFrees s t l ∧ f ∈ l.returned) ↔ Available s f := by
  constructor
  · rintro ⟨t, l, hrun, hf⟩
    obtain ⟨hpos, htotal, hmax, hfree⟩ := (Run.grounded (fun _ _ _ h => h.elim) hrun).returned f hf
    exact ⟨hpos, htotal, hmax, hfree⟩
  · intro h
    obtain ⟨t, l, hrun, -, hf⟩ := Run.reaches noFrees h.inBitmap h.pos h.total h.clear
    exact ⟨t, l, hrun, hf⟩

theorem Takes.available_iff {A : Finset Nat} (h : Takes s s' A) :
    Available s' f ↔ Available s f ∧ f ∉ A := by
  constructor
  · rintro ⟨hpos, htotal, hmax, hclear⟩
    rw [h.used, Finset.mem_union, not_or] at hclear
    rw [h.totalFrames] at htotal
    exact ⟨⟨hpos, htotal, hmax, hclear.1⟩, hclear.2⟩
  · rintro ⟨⟨hpos, htotal, hmax, hclear⟩, hA⟩
    refine ⟨hpos, by rw [h.totalFrames]; exact htotal, hmax, ?_⟩
    rw [h.used, Finset.mem_union, not_or]
    exact ⟨hclear, hA⟩

/-! ## Safe reservations -/

/-- Frame `f` has a byte in `[start, start + size)`. -/
def Intersects (f : Nat) (start size : UInt64) : Prop :=
  4096 * f < start.toNat + size.toNat ∧ start.toNat < 4096 * f + 4096

/-- If `pmm_reserve(start, size)` returns 0, no later run without frees returns a frame of the range. -/
def NeverHandedOut (s : State) (start size : UInt64) : Prop :=
  ∀ s', pmmReserve start size s = .ok (0, s') →
    ∀ t l, Run noFrees s' t l → ∀ f ∈ l.returned, ¬ Intersects f start size

/-- What is handed out in spite of the reservation: an available frame of the range that lies outside the
rounded ends. -/
theorem neverHandedOut_iff (h : ¬ ReserveFails start size) :
    NeverHandedOut s start size ↔ ∀ f, Available s f → Intersects f start size →
      f ∈ frameRange (reserveFirst start) (reserveEnd start size / 4096) := by
  obtain ⟨s', hs', htakes⟩ := pmmReserve_takes (s := s) h
  constructor
  · intro hnever f havailable hmeets
    by_contra hout
    obtain ⟨t, l, hrun, hf⟩ := exists_returned_iff.mpr (htakes.available_iff.mpr ⟨havailable, hout⟩)
    exact hnever s' hs' t l hrun f hf hmeets
  · intro hall u hu t l hrun f hf hmeets
    obtain rfl : s' = u := congrArg Prod.snd (Except.ok.inj (hs'.symm.trans hu))
    obtain ⟨havailable, hout⟩ := htakes.available_iff.mp (exists_returned_iff.mp ⟨t, l, hrun, hf⟩)
    exact hout (hall f havailable hmeets)

/-- The sum of `start`, `size` and 4095 stays below 2^64. -/
def NoWrap (start size : UInt64) : Prop := start.toNat + size.toNat + 4095 < 2 ^ 64

instance : Decidable (NoWrap start size) := inferInstanceAs (Decidable (_ < _))

/-- Without wrapping the rounded ends enclose every frame of the range but the one that starts before it. -/
theorem mem_frameRange_iff_of_noWrap (h : NoWrap start size) (hmeets : Intersects f start size) :
    f ∈ frameRange (reserveFirst start) (reserveEnd start size / 4096) ↔ start.toNat ≤ 4096 * f := by
  have hwrap : start.toNat + size.toNat + 4095 < 2 ^ 64 := h
  obtain ⟨hend, hstart⟩ := hmeets
  rw [frameRange, Finset.mem_Ico, toNat_reserveFirst, toNat_reserveEnd_div, Nat.mod_eq_of_lt hwrap,
    Nat.mod_eq_of_lt (by omega : start.toNat + 4095 < 2 ^ 64)]
  omega

/-- When the sum wraps no frame of the range lies between the rounded ends. -/
theorem notMem_frameRange_of_wrap (h : ¬ NoWrap start size) (hf : f < pmmMaxFrames)
    (hmeets : Intersects f start size) :
    f ∉ frameRange (reserveFirst start) (reserveEnd start size / 4096) := by
  have hwrap : ¬ start.toNat + size.toNat + 4095 < 2 ^ 64 := h
  have hsize := size.toNat_lt
  have hmax : f < 16777216 := hf
  obtain ⟨-, hstart⟩ := hmeets
  rw [frameRange, Finset.mem_Ico, toNat_reserveFirst, toNat_reserveEnd_div]
  -- The range meets a frame of the bitmap, so it starts far below 2^64 and the sum wraps once.
  have hfirst : (start.toNat + 4095) % 2 ^ 64 = start.toNat + 4095 := Nat.mod_eq_of_lt (by omega)
  rw [hfirst]
  omega

/-- Which reservations keep their range: those that return -1; those whose end does not wrap and that start
on a page boundary or inside a frame that could not be handed out anyway; and those whose end wraps while
no frame from the start on is available. -/
def ReserveKeeps (s : State) (start size : UInt64) : Prop :=
  ReserveFails start size ∨
    (NoWrap start size ∧ (start.toNat % 4096 = 0 ∨ ¬ Available s (start.toNat / 4096))) ∨
    (¬ NoWrap start size ∧ ∀ f, start.toNat / 4096 ≤ f → ¬ Available s f)

theorem neverHandedOut_iff_of_noWrap (h : ¬ ReserveFails start size) (hwrap : NoWrap start size) :
    NeverHandedOut s start size ↔ start.toNat % 4096 = 0 ∨ ¬ Available s (start.toNat / 4096) := by
  have hsize : 0 < size.toNat := by
    rcases Nat.eq_zero_or_pos size.toNat with h0 | hpos
    · exact absurd (Or.inl (UInt64.toNat_inj.mp h0)) h
    · exact hpos
  rw [neverHandedOut_iff h]
  constructor
  · intro hall
    by_contra hboth
    obtain ⟨hinside, havailable⟩ := not_or.mp hboth
    have hmeets : Intersects (start.toNat / 4096) start size := ⟨by omega, by omega⟩
    have hin := hall _ (not_not.mp havailable) hmeets
    rw [mem_frameRange_iff_of_noWrap hwrap hmeets] at hin
    omega
  · intro hcond f havailable hmeets
    rw [mem_frameRange_iff_of_noWrap hwrap hmeets]
    obtain ⟨-, hstart⟩ := hmeets
    -- A frame of the range that starts before it is the one the start lies in.
    by_contra hbefore
    obtain rfl : f = start.toNat / 4096 := by omega
    rcases hcond with haligned | hnot
    · omega
    · exact hnot havailable

theorem neverHandedOut_iff_of_wrap (h : ¬ ReserveFails start size) (hwrap : ¬ NoWrap start size) :
    NeverHandedOut s start size ↔ ∀ f, start.toNat / 4096 ≤ f → ¬ Available s f := by
  have hsum : ¬ start.toNat + size.toNat + 4095 < 2 ^ 64 := hwrap
  rw [neverHandedOut_iff h]
  constructor
  · intro hall f hle havailable
    have hmax : f < 16777216 := havailable.inBitmap
    have hmeets : Intersects f start size := ⟨by omega, by omega⟩
    exact notMem_frameRange_of_wrap hwrap havailable.inBitmap hmeets (hall f havailable hmeets)
  · intro hnone f havailable hmeets
    obtain ⟨-, hstart⟩ := hmeets
    exact absurd havailable (hnone f (by omega))

/-- **Reserved ranges.** A range that `pmm_reserve` accepted is never handed out by a later run without
frees if and only if the rounding covers it or what it misses could not be handed out anyway. -/
theorem pmm_reserve_keeps_iff (s : State) (start size : UInt64) :
    NeverHandedOut s start size ↔ ReserveKeeps s start size := by
  by_cases hfails : ReserveFails start size
  · refine ⟨fun _ => Or.inl hfails, fun _ s' hs' => ?_⟩
    rw [pmmReserve_fails hfails] at hs'
    have hvalue : (-1 : Int) = 0 := congrArg Prod.fst (Except.ok.inj hs')
    exact absurd hvalue (by decide)
  · by_cases hwrap : NoWrap start size
    · rw [neverHandedOut_iff_of_noWrap hfails hwrap, ReserveKeeps]
      simp [hfails, hwrap]
    · rw [neverHandedOut_iff_of_wrap hfails hwrap, ReserveKeeps]
      simp [hfails, hwrap]

/-- 256 bytes from 0x1800 on, in frame 1: the reservation returns 0 and the next allocation returns
that frame. -/
theorem pmm_reserve_hands_out : ¬ NeverHandedOut fourFrames 0x1800 0x100 := by
  have hkeeps : ¬ ReserveFails 0x1800 0x100 := by
    rintro (hsize | hend)
    · exact absurd hsize (by decide)
    · exact absurd hend (by decide)
  have hclear : (1 : Nat) ∉ fourFrames.used :=
    ((fits_iff (by decide)).mp fits_fourFrames).2.2 1 (le_refl 1) (by decide)
  have hwrap : NoWrap 0x1800 0x100 := by decide
  rw [neverHandedOut_iff_of_noWrap hkeeps hwrap, not_or, not_not]
  exact ⟨by decide, le_refl 1, by decide, by decide, hclear⟩

end MinOS.Pmm
