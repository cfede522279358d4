/-
# MinOS.Pmm.FirstFit — contiguous allocation is first fit, complete and reversible.

`pmm_alloc_frames` scans for a run of clear frames with two nested loops; `pmm_alloc_frame` is written
apart from it, with one loop and another end condition. Both are shown to return the least frame at which
the run fits, and to touch nothing but its bits and the counter.

The description of the effect is exact, bit for bit over all words: `Marks s t A` says which state `t` is.
Freeing a marked frame takes it out of `A`, so freeing all of them, in whatever order, leaves `Marks s t ∅`,
which is `t = s`.
-/
import Mathlib.Order.Bounds.Basic
import MinOS.Pmm.Frames

namespace MinOS.Pmm

open Machine (forRange forRange_runs bind_eq_ok_iff ok_bind)

/-! ## Exact effects -/

/-- `t` is `s` with the bits of the frames `A` set and `free_frames` lowered by their number. -/
structure Marks (s t : State) (A : Finset Nat) : Prop where
  bits : ∀ g, Bitmap.mem t.bitmap g = (decide (g ∈ A) || Bitmap.mem s.bitmap g)
  freeFrames : t.freeFrames = s.freeFrames - UInt64.ofNat A.card
  totalFrames : t.totalFrames = s.totalFrames
  reservedBytesTotal : t.reservedBytesTotal = s.reservedBytesTotal

variable {s t : State} {A : Finset Nat} {f : Nat}

theorem Marks.eq_of_empty (h : Marks s t ∅) : t = s := by
  have hbitmap : t.bitmap = s.bitmap := Bitmap.ext_mem fun g => by simpa using h.bits g
  have hfree : t.freeFrames = s.freeFrames := by simpa using h.freeFrames
  obtain ⟨bt, tt, ft, rt⟩ := t
  obtain ⟨bs, ts, fs, rs⟩ := s
  obtain rfl : bt = bs := hbitmap
  obtain rfl : ft = fs := hfree
  obtain rfl : tt = ts := h.totalFrames
  obtain rfl : rt = rs := h.reservedBytesTotal
  rfl

theorem marks_take (s : State) (f : Nat) : Marks s (s.take f) {f} where
  bits g := by
    rw [State.take, State.mark, Bitmap.mem_insert s.bitmap f g (by decide)]
    simp
  freeFrames := rfl
  totalFrames := rfl
  reservedBytesTotal := rfl

/-- A frame of `A` that was clear before goes back to being clear. -/
theorem Marks.give (h : Marks s t A) (hf : f ∈ A) (hclear : Bitmap.mem s.bitmap f = false) :
    Marks s (t.give f) (A.erase f) where
  bits g := by
    rw [State.give, State.unmark, Bitmap.mem_erase t.bitmap f g (by decide), h.bits]
    by_cases hg : g = f
    · simp [hg, hclear]
    · simp [hg]
  freeFrames := by
    have hcard : A.card = (A.erase f).card + 1 := (Finset.card_erase_add_one hf).symm
    have hcount := h.freeFrames
    rw [hcard, ofNat_succ] at hcount
    simp only [State.give, hcount]
    grind
  totalFrames := h.totalFrames
  reservedBytesTotal := h.reservedBytesTotal

/-! ## Where a run fits -/

/-- `count` clear frames from `f ≥ 1` on, all below `total_frames` -/
structure Fits (s : State) (count f : Nat) : Prop where
  pos : 1 ≤ f
  total : f + count ≤ s.totalFrames.toNat
  clear : ∀ g, f ≤ g → g < f + count → bitmapTest s g = .ok false

theorem notMem_used_iff_bitmapTest (hf : f < pmmMaxFrames) : bitmapTest s f = .ok false ↔ f ∉ s.used := by
  rw [bitmapTest_eq hf]
  simp

theorem fits_iff {count : Nat} (htotal : s.totalFrames.toNat ≤ pmmMaxFrames) :
    Fits s count f ↔ 1 ≤ f ∧ f + count ≤ s.totalFrames.toNat ∧
      ∀ g, f ≤ g → g < f + count → g ∉ s.used := by
  constructor
  · intro h
    refine ⟨h.pos, h.total, fun g hg hlt => ?_⟩
    have hmax : g < pmmMaxFrames := by have := h.total; omega
    exact (notMem_used_iff_bitmapTest hmax).mp (h.clear g hg hlt)
  · rintro ⟨hpos, hle, hfree⟩
    refine ⟨hpos, hle, fun g hg hlt => ?_⟩
    have hmax : g < pmmMaxFrames := by omega
    exact (notMem_used_iff_bitmapTest hmax).mpr (hfree g hg hlt)

/-- The second inner loop sets the bits of the run and no other. -/
theorem markRange_marks {count : UInt32} (hmax : f + count.toNat ≤ pmmMaxFrames) :
    ∃ t, forRange (fun g t => bitmapSet t g) count.toNat f s = .ok t ∧
      Marks s { t with freeFrames := t.freeFrames - count.toUInt64 }
        (Finset.Ico f (f + count.toNat)) := by
  obtain ⟨t, ht, -, hbits, hcount, htotal, hreserved⟩ := forRange_runs (fun g t => bitmapSet t g)
    (fun i t => f ≤ i ∧
      (∀ g, Bitmap.mem t.bitmap g = (decide (g ∈ Finset.Ico f i) || Bitmap.mem s.bitmap g)) ∧
      t.freeFrames = s.freeFrames ∧ t.totalFrames = s.totalFrames ∧
      t.reservedBytesTotal = s.reservedBytesTotal) (f + count.toNat)
    (by
      rintro i t hi ⟨hfi, hbits, hcount, htotal, hreserved⟩
      refine ⟨t.mark i, bitmapSet_eq (by omega), by omega, fun g => ?_, hcount, htotal, hreserved⟩
      rw [State.mark, Bitmap.mem_insert t.bitmap i g (by decide), hbits, Ico_succ hfi]
      by_cases hg : g = i
      · simp [hg]
      · simp [hg])
    count.toNat f s rfl ⟨le_refl _, by simp, rfl, rfl, rfl⟩
  refine ⟨t, ht, hbits, ?_, htotal, hreserved⟩
  rw [Nat.card_Ico, Nat.add_sub_cancel_left, UInt64.ofNat_uInt32ToNat]
  simp only [hcount]

/-! ## First fit -/

/-- From frame `f` on: the least frame at which the run fits is returned and marked, or the run fits
nowhere and nothing happens. -/
theorem allocFramesFrom_first (count : UInt32) (htotal : s.totalFrames.toNat ≤ pmmMaxFrames) :
    ∀ (fuel f : Nat), 1 ≤ f → f + fuel = s.totalFrames.toNat + 1 → 1 ≤ count.toNat →
      (∃ g t, f ≤ g ∧ Fits s count.toNat g ∧ (∀ h, f ≤ h → h < g → ¬ Fits s count.toNat h) ∧
        allocFramesFrom count fuel f s = .ok (frameAddress g, t) ∧
        Marks s t (Finset.Ico g (g + count.toNat))) ∨
      (∀ g, f ≤ g → ¬ Fits s count.toNat g) ∧ allocFramesFrom count fuel f s = .ok (0, s) := by
  intro fuel
  induction fuel with
  | zero =>
    intro f _ hfuel _
    refine Or.inr ⟨fun g hg hfits => ?_, rfl⟩
    have := hfits.total
    omega
  | succ fuel ih =>
    intro f hpos hfuel hcount
    have hwidth := count.toNat_lt
    have hbound : s.totalFrames.toNat ≤ 16777216 := htotal
    by_cases hguard : (f + count.toNat) % 2 ^ 64 ≤ s.totalFrames.toNat
    · have hle : f + count.toNat ≤ s.totalFrames.toNat := by omega
      have hmax : f + count.toNat ≤ pmmMaxFrames := by omega
      obtain ⟨r, hr, hiff⟩ := rangeIsClear_runs (s := s) _ _ hmax
      cases r with
      | true =>
        obtain ⟨t, ht, hmarks⟩ := markRange_marks (s := s) hmax
        refine Or.inl ⟨f, _, le_refl f, (fits_iff htotal).mpr ⟨hpos, hle, hiff.mp rfl⟩,
          fun h hh hlt => absurd hh (by omega), ?_, hmarks⟩
        rw [allocFramesFrom, if_pos hguard, hr, ok_bind, if_pos rfl, ht]
        rfl
      | false =>
        -- A frame of the run at `f` is marked, so the search goes on at `f + 1`.
        have hnot : ¬ Fits s count.toNat f := fun hfits =>
          absurd (hiff.mpr ((fits_iff htotal).mp hfits).2.2) (by decide)
        have hstep : allocFramesFrom count (fuel + 1) f s = allocFramesFrom count fuel (f + 1) s := by
          rw [allocFramesFrom, if_pos hguard, hr]
          rfl
        rw [hstep]
        rcases ih (f + 1) (by omega) (by omega) hcount with ⟨g, t, hg, hfits, hleast, hrun⟩ | ⟨hnone, hrun⟩
        · refine Or.inl ⟨g, t, by omega, hfits, fun h hh hlt => ?_, hrun⟩
          rcases Nat.eq_or_lt_of_le hh with rfl | hh
          · exact hnot
          · exact hleast h hh hlt
        · refine Or.inr ⟨fun g hg => ?_, hrun⟩
          rcases Nat.eq_or_lt_of_le hg with rfl | hg
          · exact hnot
          · exact hnone g hg
    · refine Or.inr ⟨fun g hg hfits => ?_, by rw [allocFramesFrom, if_neg hguard]⟩
      have := hfits.total
      omega

/-- `pmm_alloc_frames`, read off -/
theorem pmmAllocFrames_first (count : UInt32) (htotal : s.totalFrames.toNat ≤ pmmMaxFrames)
    (hcount : 1 ≤ count.toNat) :
    (∃ f t, IsLeast {f | Fits s count.toNat f} f ∧
      pmmAllocFrames count s = .ok (frameAddress f, t) ∧
      Marks s t (Finset.Ico f (f + count.toNat))) ∨
    (∀ f, ¬ Fits s count.toNat f) ∧ pmmAllocFrames count s = .ok (0, s) := by
  have hne : count ≠ 0 := by
    rintro rfl
    exact absurd hcount (by decide)
  rw [pmmAllocFrames, if_neg hne]
  rcases allocFramesFrom_first count htotal s.totalFrames.toNat 1 (le_refl 1) (by omega) hcount
    with ⟨f, t, hf, hfits, hleast, hrun, hmarks⟩ | ⟨hnone, hrun⟩
  · refine Or.inl ⟨f, t, ⟨hfits, fun g hg => ?_⟩, hrun, hmarks⟩
    by_contra hlt
    exact hleast g hg.pos (by omega) hg
  · exact Or.inr ⟨fun f hfits => hnone f hfits.pos hfits, hrun⟩

theorem fits_one_iff (htotal : s.totalFrames.toNat ≤ pmmMaxFrames) :
    Fits s 1 f ↔ 1 ≤ f ∧ f < s.totalFrames.toNat ∧ f ∉ s.used := by
  rw [fits_iff htotal]
  constructor
  · rintro ⟨hpos, hle, hfree⟩
    exact ⟨hpos, hle, hfree f (le_refl f) (by omega)⟩
  · rintro ⟨hpos, hlt, hfree⟩
    refine ⟨hpos, hlt, fun g hg hg' => ?_⟩
    obtain rfl : g = f := by omega
    exact hfree

/-- What the bits and the counters are determines the state. -/
theorem Marks.unique {t' : State} (h : Marks s t A) (h' : Marks s t' A) : t = t' := by
  refine Marks.eq_of_empty ⟨fun g => ?_, ?_, ?_, ?_⟩
  · rw [h.bits, h'.bits]
    simp
  · rw [h.freeFrames, h'.freeFrames]
    simp
  · rw [h.totalFrames, h'.totalFrames]
  · rw [h.reservedBytesTotal, h'.reservedBytesTotal]

/-- The two scans agree on one frame. -/
theorem pmmAllocFrame_eq_one (htotal : s.totalFrames.toNat ≤ pmmMaxFrames) :
    pmmAllocFrame s = pmmAllocFrames 1 s := by
  obtain ⟨a, s', hrun⟩ := pmmAllocFrame_runs htotal
  rw [hrun]
  rcases pmmAllocFrames_first 1 htotal (le_refl 1) with ⟨f, t, hleast, hmany, hmarks⟩ | ⟨hnone, hmany⟩
  · obtain ⟨hpos, hlt, hfree⟩ := (fits_one_iff htotal).mp hleast.1
    have hbelow : ∀ g, 1 ≤ g → g < f → g ∈ s.used := by
      intro g hg hgf
      by_contra hfree'
      have := hleast.2 ((fits_one_iff htotal).mpr ⟨hg, by omega, hfree'⟩)
      omega
    obtain ⟨rfl, -, rfl⟩ := pmmAllocFrame_lowest hrun hpos hlt hfree hbelow
    have htake := marks_take s f
    rw [← Ico_succ_singleton] at htake
    rw [hmany, hmarks.unique htake]
  · rcases pmmAllocFrame_cases hrun with ⟨rfl, rfl, -⟩ | ⟨g, hpos, hlt, -, hfree, -⟩
    · exact hmany.symm
    · exact absurd ((fits_one_iff htotal).mpr ⟨hpos, hlt, hfree⟩) (hnone g)

/-! ## Freeing the run again -/

/-- `pmm_free_frame` on one address after the other -/
def freeEach : List UInt64 → State → Except Fault State
  | [], s => .ok s
  | a :: as, s => do
    let s' ← pmmFreeFrame a s
    freeEach as s'

/-- Frames that were clear are given back one by one, in the order of the list. -/
theorem freeEach_marks (hmax : ∀ g ∈ A, 1 ≤ g ∧ g < s.totalFrames.toNat ∧ g < pmmMaxFrames ∧
      Bitmap.mem s.bitmap g = false) :
    ∀ (order : List Nat) (t : State), order.Nodup → order.toFinset ⊆ A → Marks s t order.toFinset →
      freeEach (order.map frameAddress) t = .ok s := by
  intro order
  induction order with
  | nil =>
    intro t _ _ hmarks
    exact congrArg Except.ok (Marks.eq_of_empty (by simpa using hmarks))
  | cons f order ih =>
    intro t hnodup hsub hmarks
    obtain ⟨hfresh, hnodup⟩ := List.nodup_cons.mp hnodup
    rw [List.toFinset_cons] at hsub hmarks
    obtain ⟨hpos, htotal, hf, hclear⟩ := hmax f (hsub (Finset.mem_insert_self _ _))
    have hused : f ∈ t.used := by
      rw [mem_used_iff hf, hmarks.bits]
      simp
    have hgive := hmarks.give (Finset.mem_insert_self _ _) hclear
    rw [Finset.erase_insert (by simpa using hfresh)] at hgive
    have hrest := ih (t.give f) hnodup (fun g hg => hsub (Finset.mem_insert_of_mem hg)) hgive
    rw [List.map_cons, freeEach, pmmFreeFrame_eq hpos hf,
      if_pos ⟨by rw [hmarks.totalFrames]; exact htotal, hused⟩]
    exact hrest

/-- **Reversible.** The frames of the run, freed in any order, leave the state the allocation met. -/
theorem freeEach_perm {count : Nat} (htotal : s.totalFrames.toNat ≤ pmmMaxFrames) (hfits : Fits s count f)
    (hmarks : Marks s t (Finset.Ico f (f + count))) {order : List Nat}
    (hperm : order.Perm (List.range' f count)) : freeEach (order.map frameAddress) t = .ok s := by
  obtain ⟨hpos, hle, hfree⟩ := (fits_iff htotal).mp hfits
  have hset : order.toFinset = Finset.Ico f (f + count) := by
    ext g
    rw [List.mem_toFinset, hperm.mem_iff, List.mem_range'_1, Finset.mem_Ico]
  refine freeEach_marks (A := Finset.Ico f (f + count)) (fun g hg => ?_) order t
    (hperm.nodup_iff.mpr List.nodup_range') (by rw [hset]) (by rwa [hset])
  rw [Finset.mem_Ico] at hg
  have hgmax : g < pmmMaxFrames := by omega
  refine ⟨by omega, by omega, hgmax, ?_⟩
  have hclear := hfree g hg.1 hg.2
  rw [mem_used_iff hgmax] at hclear
  exact Bool.eq_false_iff.mpr hclear

/-- The frame `pmm_alloc_frame` returned is given back by `pmm_free_frame`. -/
theorem pmmFreeFrame_of_pmmAllocFrame {a : UInt64} (h : pmmAllocFrame s = .ok (a, t)) (ha : a ≠ 0) :
    pmmFreeFrame a t = .ok s := by
  rcases pmmAllocFrame_cases h with ⟨rfl, -, -⟩ | ⟨g, hpos, htotal, hmax, hfree, -, rfl, rfl⟩
  · exact absurd rfl ha
  · have hused : g ∈ (s.take g).used := by
      rw [used_take hmax]
      exact Finset.mem_insert_self _ _
    have hclear : Bitmap.mem s.bitmap g = false := by
      rw [mem_used_iff hmax] at hfree
      exact Bool.eq_false_iff.mpr hfree
    have hback := (marks_take s g).give (Finset.mem_singleton_self g) hclear
    rw [Finset.erase_singleton] at hback
    rw [pmmFreeFrame_eq hpos hmax, if_pos ⟨htotal, hused⟩, hback.eq_of_empty]

/-- **First fit, complete, reversible.** With `total_frames` inside the bitmap and `count ≥ 1`,
`pmm_alloc_frames` returns `4096 * f` for the least `f` at which the run fits, sets exactly its bits and
lowers `free_frames` by `count`; freeing the frames in any order restores the state. It returns 0, with
the state unchanged, exactly if the run fits nowhere. `pmm_alloc_frame` is `pmm_alloc_frames(1)`. -/
theorem pmm_alloc_frames_first_fit (s : State) (count : UInt32)
    (htotal : s.totalFrames.toNat ≤ pmmMaxFrames) (hcount : 1 ≤ count) :
    (∀ f, IsLeast {f | Fits s count.toNat f} f →
      ∃ a t, pmmAllocFrames count s = .ok (a, t) ∧ a.toNat = 4096 * f ∧
        (∀ g, Bitmap.mem t.bitmap g =
          (decide (f ≤ g ∧ g < f + count.toNat) || Bitmap.mem s.bitmap g)) ∧
        t.freeFrames = s.freeFrames - count.toUInt64 ∧ t.totalFrames = s.totalFrames ∧
        t.reservedBytesTotal = s.reservedBytesTotal ∧
        ∀ order : List Nat, order.Perm (List.range' f count.toNat) →
          freeEach (order.map frameAddress) t = .ok s) ∧
    (pmmAllocFrames count s = .ok (0, s) ↔ ¬ ∃ f, Fits s count.toNat f) ∧
    (∀ t, pmmAllocFrames count s = .ok (0, t) → t = s) ∧
    pmmAllocFrame s = pmmAllocFrames 1 s := by
  have hcount' : 1 ≤ count.toNat := UInt32.le_iff_toNat_le.mp hcount
  rcases pmmAllocFrames_first count htotal hcount' with ⟨f, t, hleast, hrun, hmarks⟩ | ⟨hnone, hrun⟩
  · have hfits : Fits s count.toNat f := hleast.1
    have hfmax : f < pmmMaxFrames := by have := hfits.total; omega
    have hne : frameAddress f ≠ 0 := frameAddress_ne_zero hfits.pos hfmax
    have hnever : ∀ u, pmmAllocFrames count s ≠ .ok (0, u) := by
      intro u hzero
      rw [hrun] at hzero
      exact hne (congrArg Prod.fst (Except.ok.inj hzero))
    refine ⟨fun g hg => ?_, ⟨fun h => absurd h (hnever s), fun h => absurd ⟨f, hfits⟩ h⟩,
      fun u hu => absurd hu (hnever u), pmmAllocFrame_eq_one htotal⟩
    obtain rfl : g = f := hg.unique hleast
    refine ⟨frameAddress g, t, hrun, ?_, fun i => ?_, ?_, hmarks.totalFrames, hmarks.reservedBytesTotal,
      fun order horder => freeEach_perm htotal hfits hmarks horder⟩
    · rw [toNat_frameAddress hfmax]
      exact Nat.mul_comm g 4096
    · rw [hmarks.bits]
      simp
    · rw [hmarks.freeFrames, Nat.card_Ico, Nat.add_sub_cancel_left, UInt64.ofNat_uInt32ToNat]
  · refine ⟨fun g hg => absurd hg.1 (hnone g), ⟨fun _ => ?_, fun _ => hrun⟩, fun u hu => ?_,
      pmmAllocFrame_eq_one htotal⟩
    · rintro ⟨f, hf⟩
      exact hnone f hf
    · exact (congrArg Prod.snd (Except.ok.inj (hrun.symm.trans hu))).symm

/-- Four frames, none of them marked -/
def fourFrames : State := { State.zero with totalFrames := 4, freeFrames := 3 }

theorem fits_fourFrames : Fits fourFrames 2 1 := by
  refine ⟨le_refl 1, by decide, fun g hg hlt => ?_⟩
  obtain rfl | rfl : g = 1 ∨ g = 2 := by omega
  · rfl
  · rfl

theorem pmm_alloc_frames_first_fit_four :
    ∃ a t, pmmAllocFrames 2 fourFrames = .ok (a, t) ∧ a.toNat = 4096 ∧
      freeEach [frameAddress 2, frameAddress 1] t = .ok fourFrames := by
  obtain ⟨a, t, hrun, ha, -, -, -, -, hback⟩ :=
    (pmm_alloc_frames_first_fit fourFrames 2 (by decide) (by decide)).1 1 ⟨fits_fourFrames, fun _ h => h.pos⟩
  exact ⟨a, t, hrun, ha, hback [2, 1] (List.Perm.swap 1 2 [])⟩

end MinOS.Pmm
