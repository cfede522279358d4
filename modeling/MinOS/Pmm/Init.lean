/-
# MinOS.Pmm.Init — the state `pmm_init` leaves.

`initDescriptor` counts the frames of a conventional descriptor into both `free_frames` and
`total_frames`; `reserveRegions` then marks the kernel's own regions and counts them off. The result is
`Booted`: the marked frames are the reserved ones, `total_frames` is the number of frames counted, and
`free_frames` plus the marked frames is that number too. Two conditions carry it. A conventional
descriptor must not end before it starts once its end has been cut to 64 bits and clamped to 64 GiB,
or the subtraction that follows wraps; and a reserved range must lie inside the bitmap.
-/
import MinOS.Pmm.Frames

namespace MinOS.Pmm

open MinOS.Boot
open Machine (forRange forRange_runs bind_eq_ok_iff ok_bind)

/-! ## Counting the conventional descriptors -/

/-- The subtraction `e - s` for `d` does not wrap. -/
def EndsAfterStart (d : EfiMemoryDescriptor) : Prop :=
  d.IsConventional → d.numberOfPages ≠ 0 → roundedStart d ≤ clampedEnd d

/-- The frames the loop for `d` visits -/
def countedFrames (d : EfiMemoryDescriptor) : Finset Nat :=
  if d.IsConventional ∧ d.numberOfPages ≠ 0 then
    frameRange (roundedStart d / 4096) (clampedEnd d / 4096)
  else ∅

/-- The frames counted by the whole loop, as often as they are counted -/
def countedTotal : List EfiMemoryDescriptor → Nat
  | [] => 0
  | d :: ds => (countedFrames d).card + countedTotal ds

theorem toNat_div_4096 (x : UInt64) : (x / 4096).toNat = x.toNat / 4096 := by
  rw [UInt64.toNat_div]
  rfl

theorem toNat_roundedStart_mod (d : EfiMemoryDescriptor) : (roundedStart d).toNat % 4096 = 0 := by
  rw [roundedStart, Word.toNat_and_not_low (k := 12) _ _ rfl]
  omega

theorem toNat_pmmMaxBytes : pmmMaxBytes.toNat = 68719476736 := rfl

theorem toNat_clampedEnd (d : EfiMemoryDescriptor) :
    (clampedEnd d).toNat = min ((d.physicalStart + d.numberOfPages * 4096).toNat) 68719476736 := by
  have hcmp : d.physicalStart + d.numberOfPages * 4096 > pmmMaxBytes ↔
      68719476736 < (d.physicalStart + d.numberOfPages * 4096).toNat := by
    rw [gt_iff_lt, UInt64.lt_iff_toNat_lt, toNat_pmmMaxBytes]
  rw [clampedEnd]
  by_cases h : d.physicalStart + d.numberOfPages * 4096 > pmmMaxBytes
  · rw [if_pos h, toNat_pmmMaxBytes]
    have := hcmp.mp h
    omega
  · rw [if_neg h]
    have := mt hcmp.mpr h
    omega

theorem clampedEnd_div_le (d : EfiMemoryDescriptor) : (clampedEnd d / 4096).toNat ≤ pmmMaxFrames := by
  rw [toNat_div_4096, toNat_clampedEnd, pmmMaxFrames_eq]
  omega

/-- Both halves of an iteration count the same number of frames. -/
theorem toNat_clampedEnd_sub {d : EfiMemoryDescriptor} (h : roundedStart d ≤ clampedEnd d) :
    (clampedEnd d - roundedStart d) / 4096 =
      UInt64.ofNat ((clampedEnd d / 4096).toNat - (roundedStart d / 4096).toNat) := by
  -- The start is a multiple of 4096, so the quotient of the difference is the difference of quotients.
  have hmod := toNat_roundedStart_mod d
  have hle := UInt64.le_iff_toNat_le.mp h
  apply UInt64.toNat_inj.mp
  have hlt := (clampedEnd d).toNat_lt
  rw [toNat_div_4096, UInt64.toNat_sub_of_le _ _ h, UInt64.toNat_ofNat', toNat_div_4096,
    toNat_div_4096]
  omega

variable {s s' : State}

theorem countFrame_clear {f : Nat} (hused : s.used = ∅) (hf : f < pmmMaxFrames) :
    ∃ s', countFrame f s = .ok s' ∧ s'.used = ∅ ∧ s'.freeFrames = s.freeFrames + 1 ∧
      s'.totalFrames = s.totalFrames := by
  have hfree : f ∉ s.used := by simp [hused]
  refine ⟨s.give f, ?_, by rw [used_give, hused]; rfl, rfl, rfl⟩
  rw [countFrame, bitmapTest_eq hf, ok_bind, if_neg (fun h => hfree (of_decide_eq_true h)),
    bitmapClear_eq hf]
  rfl

/-- A loop over clear frames adds their number to `free_frames`. -/
theorem countRange_clear (first : Nat) {last : Nat} (hused : s.used = ∅) (hlast : last ≤ pmmMaxFrames) :
    ∃ s', forRange countFrame (last - first) first s = .ok s' ∧ s'.used = ∅ ∧
      s'.freeFrames = s.freeFrames + UInt64.ofNat (last - first) ∧ s'.totalFrames = s.totalFrames := by
  by_cases hle : first ≤ last
  · obtain ⟨t, ht, -, hresult⟩ := forRange_runs countFrame
      (fun i t => first ≤ i ∧ t.used = ∅ ∧ t.freeFrames = s.freeFrames + UInt64.ofNat (i - first) ∧
        t.totalFrames = s.totalFrames) last
      (by
        rintro i t hi ⟨hfi, hused, hfree, htotal⟩
        obtain ⟨u, hu, hused', hfree', htotal'⟩ := countFrame_clear (f := i) hused (by omega)
        refine ⟨u, hu, by omega, hused', ?_, htotal'.trans htotal⟩
        rw [hfree', hfree, Nat.sub_add_comm hfi, ofNat_succ]
        grind)
      (last - first) first s (by omega) ⟨le_refl _, hused, by simp, rfl⟩
    exact ⟨t, ht, hresult⟩
  · have hzero : last - first = 0 := by omega
    rw [hzero]
    exact ⟨s, rfl, hused, by simp, rfl⟩

theorem card_frameRange (start stop : UInt64) :
    (frameRange start stop).card = stop.toNat - start.toNat := Nat.card_Ico _ _

theorem initDescriptor_counts {d : EfiMemoryDescriptor} (hused : s.used = ∅) (h : EndsAfterStart d) :
    ∃ s', initDescriptor d s = .ok s' ∧ s'.used = ∅ ∧
      s'.freeFrames = s.freeFrames + UInt64.ofNat (countedFrames d).card ∧
      s'.totalFrames = s.totalFrames + UInt64.ofNat (countedFrames d).card := by
  by_cases htype : d.type = efiConventionalMemory
  · by_cases hpages : d.numberOfPages = 0
    · refine ⟨s, ?_, hused, ?_, ?_⟩
      · rw [initDescriptor, if_neg (not_not.mpr htype), if_pos hpages]
      · simp [countedFrames, hpages]
      · simp [countedFrames, hpages]
    · obtain ⟨t, ht, hused', hfree, htotal⟩ := countRange_clear (roundedStart d / 4096).toNat hused
        (clampedEnd_div_le d)
      have hcard : (countedFrames d).card =
          (clampedEnd d / 4096).toNat - (roundedStart d / 4096).toNat := by
        rw [countedFrames, if_pos ⟨htype, hpages⟩, card_frameRange]
      rw [hcard]
      refine ⟨{ t with totalFrames := t.totalFrames + (clampedEnd d - roundedStart d) / 4096 }, ?_, ?_,
        hfree, ?_⟩
      · rw [initDescriptor, if_neg (not_not.mpr htype), if_neg hpages]
        show (forRange countFrame _ _ s >>= _) = _
        rw [ht]
        rfl
      · rw [← hused']
        exact used_congr rfl
      · show t.totalFrames + _ = _
        rw [htotal, toNat_clampedEnd_sub (h htype hpages)]
  · have hcounted : countedFrames d = ∅ := if_neg (fun hconv => htype hconv.1)
    rw [hcounted]
    refine ⟨{ s with reservedBytesTotal := s.reservedBytesTotal + d.numberOfPages * 4096 }, ?_, ?_,
      by simp, by simp⟩
    · rw [initDescriptor, if_pos htype]
    · rw [← hused]
      exact used_congr rfl

theorem initDescriptors_counts :
    ∀ (ds : List EfiMemoryDescriptor) (s : State), s.used = ∅ → (∀ d ∈ ds, EndsAfterStart d) →
      ∃ s', initDescriptors ds s = .ok s' ∧ s'.used = ∅ ∧
        s'.freeFrames = s.freeFrames + UInt64.ofNat (countedTotal ds) ∧
        s'.totalFrames = s.totalFrames + UInt64.ofNat (countedTotal ds) := by
  intro ds
  induction ds with
  | nil =>
    intro s hused _
    exact ⟨s, rfl, hused, by simp [countedTotal], by simp [countedTotal]⟩
  | cons d ds ih =>
    intro s hused hends
    obtain ⟨t, ht, htused, htfree, httotal⟩ := initDescriptor_counts hused (hends d (by simp))
    obtain ⟨u, hu, huused, hufree, hutotal⟩ :=
      ih t htused (fun d' hd' => hends d' (List.mem_cons_of_mem d hd'))
    refine ⟨u, ?_, huused, ?_, ?_⟩
    · rw [initDescriptors, ht, ok_bind, hu]
    · rw [hufree, htfree, countedTotal, UInt64.ofNat_add]
      grind
    · rw [hutotal, httotal, countedTotal, UInt64.ofNat_add]
      grind

/-! ## Reserving the kernel's regions -/

/-- The frames a region covers, rounded out -/
def Region.frames (r : Region) : Finset Nat := frameRange r.firstFrame r.lastFrame

/-- The frames of all of them -/
def framesOf : List Region → Finset Nat
  | [] => ∅
  | r :: rs => r.frames ∪ framesOf rs

theorem mem_framesOf {f : Nat} : ∀ {rs : List Region}, f ∈ framesOf rs ↔ ∃ r ∈ rs, f ∈ r.frames := by
  intro rs
  induction rs with
  | nil => simp [framesOf]
  | cons r rs ih => simp [framesOf, ih]

/-- `reserve_range` for the region does not leave the bitmap. -/
def Region.InBitmap (r : Region) : Prop := RangeInBitmap r.firstFrame r.lastFrame

theorem reserveRegions_takes :
    ∀ (rs : List Region) (s : State), (∀ r ∈ rs, r.InBitmap) →
      ∃ s', reserveRegions rs s = .ok s' ∧ Takes s s' (framesOf rs) := by
  intro rs
  induction rs with
  | nil => intro s _; exact ⟨s, rfl, Takes.refl s⟩
  | cons r rs ih =>
    intro s hin
    obtain ⟨t, ht, htakes⟩ := reserveRange_takes (s := s) (hin r (by simp))
    obtain ⟨u, hu, htakes'⟩ := ih t (fun r' hr' => hin r' (List.mem_cons_of_mem r hr'))
    refine ⟨u, ?_, htakes.trans htakes'⟩
    rw [reserveRegions, ht, ok_bind, hu]

theorem inBitmap_of_reserveRegions :
    ∀ (rs : List Region) (s s' : State), reserveRegions rs s = .ok s' → ∀ r ∈ rs, r.InBitmap := by
  intro rs
  induction rs with
  | nil => intro s s' _ r hr; cases hr
  | cons r rs ih =>
    intro s s' h r' hr'
    obtain ⟨t, ht, hrest⟩ := bind_eq_ok_iff.mp h
    rcases List.mem_cons.mp hr' with rfl | hr'
    · exact rangeInBitmap_of_reserveRange ht
    · exact ih t s' hrest r' hr'

/-! ## The state after `pmm_init` -/

/-- The frames `pmm_init` marks: those of the reserved regions, if there is a memory map -/
def initiallyUsed (info : BootInfo) : Finset Nat :=
  if info.HasMap then framesOf (reservedRegions info) else ∅

/-- What `pmm_init` establishes -/
structure Booted (info : BootInfo) (s : State) : Prop where
  used : s.used = initiallyUsed info
  totalFrames : s.totalFrames = UInt64.ofNat (countedTotal info.descriptors)
  balance : s.balance = UInt64.ofNat (countedTotal info.descriptors)

theorem countedTotal_of_not_hasMap {info : BootInfo} (h : ¬ info.HasMap) :
    countedTotal info.descriptors = 0 := by
  rw [BootInfo.descriptors, if_neg h]
  rfl

/-- **`pmm_init` runs** when no conventional descriptor makes its subtraction wrap and every reserved
range lies in the bitmap. -/
theorem pmmInit_runs {info : BootInfo} (hends : ∀ d ∈ info.descriptors, EndsAfterStart d)
    (hregions : info.HasMap → ∀ r ∈ reservedRegions info, r.InBitmap) :
    ∃ s, pmmInit (some info) = .ok s ∧ Booted info s := by
  -- Without a memory map the state stays zero.
  by_cases hmap : info.HasMap
  · obtain ⟨t, ht, htused, htfree, httotal⟩ :=
      initDescriptors_counts info.descriptors State.zero used_zero hends
    obtain ⟨s, hs, htakes⟩ := reserveRegions_takes (reservedRegions info) t (hregions hmap)
    refine ⟨s, ?_, ?_, ?_, ?_⟩
    · rw [pmmInit, if_pos hmap, ht, ok_bind, hs]
    · rw [htakes.used, htused, initiallyUsed, if_pos hmap, Finset.empty_union]
    · rw [htakes.totalFrames, httotal]
      exact UInt64.zero_add _
    · rw [htakes.balance, State.balance, htused, htfree, Finset.card_empty]
      show 0 + _ + 0 = _
      rw [UInt64.zero_add, UInt64.add_zero]
  · refine ⟨State.zero, by rw [pmmInit, if_neg hmap], ?_, ?_, ?_⟩
    · rw [used_zero, initiallyUsed, if_neg hmap]
    · rw [countedTotal_of_not_hasMap hmap]
      rfl
    · rw [countedTotal_of_not_hasMap hmap, State.balance, used_zero]
      rfl

/-- A `pmm_init` that returned reserved inside the bitmap. -/
theorem inBitmap_of_pmmInit {info : BootInfo} {s : State} (h : pmmInit (some info) = .ok s)
    (hmap : info.HasMap) : ∀ r ∈ reservedRegions info, r.InBitmap := by
  rw [pmmInit, if_pos hmap] at h
  obtain ⟨t, -, hrest⟩ := bind_eq_ok_iff.mp h
  exact inBitmap_of_reserveRegions _ t s hrest

theorem booted_of_pmmInit {info : BootInfo} {s : State}
    (hends : ∀ d ∈ info.descriptors, EndsAfterStart d) (h : pmmInit (some info) = .ok s) :
    Booted info s := by
  obtain ⟨t, ht, hbooted⟩ := pmmInit_runs hends (inBitmap_of_pmmInit h)
  obtain rfl := Except.ok.inj (h.symm.trans ht)
  exact hbooted

/-! ## How many frames are counted -/

/-- Page-aligned descriptors start where the rounding leaves them. -/
theorem toNat_roundedStart {d : EfiMemoryDescriptor} (haligned : 4096 ∣ d.physicalStart.toNat) :
    (roundedStart d).toNat = d.physicalStart.toNat := by
  have hlt := d.physicalStart.toNat_lt
  have h4095 : (4095 : UInt64).toNat = 4095 := rfl
  rw [roundedStart, Word.toNat_and_not_low (k := 12) _ _ rfl, UInt64.toNat_add, h4095]
  omega

theorem toNat_end_le (d : EfiMemoryDescriptor) :
    (d.physicalStart + d.numberOfPages * 4096).toNat ≤ d.endByte := by
  have h4096 : (4096 : UInt64).toNat = 4096 := rfl
  rw [UInt64.toNat_add, UInt64.toNat_mul, h4096, EfiMemoryDescriptor.endByte]
  omega

/-- Every byte of a counted frame belongs to its descriptor. -/
theorem covers_of_mem_countedFrames {d : EfiMemoryDescriptor} {f b : Nat}
    (haligned : 4096 ∣ d.physicalStart.toNat) (hf : f ∈ countedFrames d) (hb : b / 4096 = f) :
    d.Covers b := by
  rw [countedFrames] at hf
  split at hf
  · rw [frameRange, Finset.mem_Ico, toNat_div_4096, toNat_div_4096, toNat_roundedStart haligned,
      toNat_clampedEnd] at hf
    have hend := toNat_end_le d
    exact ⟨by omega, by omega⟩
  · cases hf

theorem countedFrames_lt {d : EfiMemoryDescriptor} {f : Nat} (hf : f ∈ countedFrames d) :
    f < pmmMaxFrames := by
  rw [countedFrames] at hf
  split at hf
  · rw [frameRange, Finset.mem_Ico] at hf
    exact lt_of_lt_of_le hf.2 (clampedEnd_div_le d)
  · cases hf

/-- The frames counted for some descriptor -/
def countedSet : List EfiMemoryDescriptor → Finset Nat
  | [] => ∅
  | d :: ds => countedFrames d ∪ countedSet ds

theorem mem_countedSet {f : Nat} :
    ∀ {ds : List EfiMemoryDescriptor}, f ∈ countedSet ds ↔ ∃ d ∈ ds, f ∈ countedFrames d := by
  intro ds
  induction ds with
  | nil => simp [countedSet]
  | cons d ds ih => simp [countedSet, ih]

/-- Aligned, disjoint descriptors have every frame counted once. -/
theorem card_countedSet :
    ∀ {ds : List EfiMemoryDescriptor}, (∀ d ∈ ds, 4096 ∣ d.physicalStart.toNat) →
      ds.Pairwise (fun d d' => ∀ b, d.Covers b → ¬ d'.Covers b) →
      (countedSet ds).card = countedTotal ds := by
  intro ds
  induction ds with
  | nil => intro _ _; rfl
  | cons d ds ih =>
    intro haligned hdisjoint
    obtain ⟨hd, hds⟩ := List.pairwise_cons.mp hdisjoint
    -- A frame counted for two descriptors would have its first byte in both.
    have hsplit : Disjoint (countedFrames d) (countedSet ds) := by
      rw [Finset.disjoint_left]
      intro f hf hf'
      obtain ⟨d', hd', hf'⟩ := mem_countedSet.mp hf'
      have hbyte : f * 4096 / 4096 = f := by omega
      exact hd d' hd' (f * 4096) (covers_of_mem_countedFrames (haligned d (by simp)) hf hbyte)
        (covers_of_mem_countedFrames (haligned d' (List.mem_cons_of_mem d hd')) hf' hbyte)
    rw [countedSet, countedTotal, Finset.card_union_of_disjoint hsplit,
      ih (fun d' hd' => haligned d' (List.mem_cons_of_mem d hd')) hds]

theorem countedSet_subset (ds : List EfiMemoryDescriptor) :
    countedSet ds ⊆ Finset.range pmmMaxFrames := by
  intro f hf
  obtain ⟨d, -, hf⟩ := mem_countedSet.mp hf
  exact Finset.mem_range.mpr (countedFrames_lt hf)

theorem countedTotal_le {info : BootInfo} (hmap : info.MapWellFormed) :
    countedTotal info.descriptors ≤ pmmMaxFrames := by
  have hcard := Finset.card_le_card (countedSet_subset info.descriptors)
  rwa [card_countedSet hmap.aligned hmap.disjoint, Finset.card_range] at hcard

theorem Booted.toNat_totalFrames {info : BootInfo} {s : State} (h : Booted info s)
    (hmap : info.MapWellFormed) : s.totalFrames.toNat = countedTotal info.descriptors := by
  have hle := countedTotal_le hmap
  rw [pmmMaxFrames_eq] at hle
  rw [h.totalFrames, UInt64.toNat_ofNat']
  omega

end MinOS.Pmm
