/-
# MinOS.Pmm.Accounting — which frames are handed out, and what `pmm_free_frames` says.

`bitmap[]` starts with every frame clear and `pmm_init` never marks what is not conventional memory, so
an allocation is confined by two things only: the frames boot marked, and `total_frames`, a number of
conventional frames used as a bound on frame numbers. `conventional_only_iff` says exactly which
boot infos make that harmless, and `accounting_exact_iff` which make the free count right: when the
reserved regions cover conventional frames only and no frame below the bound is anything else.
`hole_hands_out_unlisted_frame` is a map with memory from 1 MiB on, where the first frame handed out
is described by nothing.
-/
import Mathlib.Data.Set.Card
import MinOS.Pmm.Ownership

namespace MinOS.Pmm

open MinOS.Boot

/-! ## Conventional frames -/

/-- The frames counted for a descriptor below 64 GiB are those that lie entirely inside it. -/
theorem mem_countedFrames_iff {d : EfiMemoryDescriptor} {f : Nat}
    (haligned : 4096 ∣ d.physicalStart.toNat) (hbelow : d.IsConventional → d.endByte ≤ 2 ^ 36) :
    f ∈ countedFrames d ↔ d.IsConventional ∧ ∀ b, b / 4096 = f → d.Covers b := by
  constructor
  · intro hf
    have hconv : d.IsConventional := by
      by_contra hnot
      rw [countedFrames, if_neg (fun h => hnot h.1)] at hf
      cases hf
    exact ⟨hconv, fun b hb => covers_of_mem_countedFrames haligned hf hb⟩
  · rintro ⟨hconv, hcovers⟩
    have hfirst := (hcovers (f * 4096) (by omega)).1
    have hlast := (hcovers (f * 4096 + 4095) (by omega)).2
    have hend : d.endByte = d.physicalStart.toNat + d.numberOfPages.toNat * 4096 := rfl
    have hpages : d.numberOfPages ≠ 0 := by
      intro h0
      rw [h0, UInt64.toNat_zero] at hend
      omega
    rw [countedFrames, if_pos ⟨hconv, hpages⟩, frameRange, Finset.mem_Ico, toNat_div_4096,
      toNat_div_4096, toNat_roundedStart haligned, toNat_clampedEnd_of_below (hbelow hconv)]
    omega

theorem mem_countedSet_iff {info : BootInfo} {f : Nat} (hmap : info.MapWellFormed)
    (hconv : ConventionalBelow info) :
    f ∈ countedSet info.descriptors ↔ info.Conventional f := by
  rw [mem_countedSet]
  constructor
  · rintro ⟨d, hd, hf⟩
    exact ⟨d, hd, (mem_countedFrames_iff (hmap.aligned d hd) (hconv d hd)).mp hf⟩
  · rintro ⟨d, hd, hf⟩
    exact ⟨d, hd, (mem_countedFrames_iff (hmap.aligned d hd) (hconv d hd)).mpr hf⟩

/-- `NumberOfPages` summed over the conventional descriptors -/
def conventionalPages : List EfiMemoryDescriptor → Nat
  | [] => 0
  | d :: ds => (if d.IsConventional then d.numberOfPages.toNat else 0) + conventionalPages ds

theorem card_countedFrames {d : EfiMemoryDescriptor} (haligned : 4096 ∣ d.physicalStart.toNat)
    (hbelow : d.IsConventional → d.endByte ≤ 2 ^ 36) :
    (countedFrames d).card = if d.IsConventional then d.numberOfPages.toNat else 0 := by
  by_cases hconv : d.IsConventional
  · rw [if_pos hconv]
    by_cases hpages : d.numberOfPages = 0
    · rw [countedFrames, if_neg (fun h => h.2 hpages), hpages]
      rfl
    · have hend : d.endByte = d.physicalStart.toNat + d.numberOfPages.toNat * 4096 := rfl
      rw [countedFrames, if_pos ⟨hconv, hpages⟩, card_frameRange, toNat_div_4096, toNat_div_4096,
        toNat_roundedStart haligned, toNat_clampedEnd_of_below (hbelow hconv)]
      omega
  · rw [if_neg hconv, countedFrames, if_neg (fun h => hconv h.1), Finset.card_empty]

theorem countedTotal_eq_conventionalPages :
    ∀ {ds : List EfiMemoryDescriptor}, (∀ d ∈ ds, 4096 ∣ d.physicalStart.toNat) →
      (∀ d ∈ ds, d.IsConventional → d.endByte ≤ 2 ^ 36) → countedTotal ds = conventionalPages ds := by
  intro ds
  induction ds with
  | nil => intro _ _; rfl
  | cons d ds ih =>
    intro haligned hbelow
    rw [countedTotal, conventionalPages,
      card_countedFrames (haligned d (by simp)) (hbelow d (by simp)),
      ih (fun d' hd' => haligned d' (List.mem_cons_of_mem d hd'))
        (fun d' hd' => hbelow d' (List.mem_cons_of_mem d hd'))]

/-! ## Conventional memory only -/

/-- Below `total_frames`, everything boot left unmarked is conventional memory. -/
def GapFree (info : BootInfo) : Prop :=
  ∀ f, 1 ≤ f → f < conventionalPages info.descriptors → f ∉ initiallyUsed info → info.Conventional f

/-- What boot establishes when conventional memory lies below 64 GiB -/
structure BootedBelow (info : BootInfo) (s₀ : State) : Prop where
  booted : Booted info s₀
  totalFrames : s₀.totalFrames.toNat = conventionalPages info.descriptors
  inBitmap : s₀.totalFrames.toNat ≤ pmmMaxFrames

theorem bootedBelow {info : BootInfo} {s₀ : State} (hmap : info.MapWellFormed)
    (hconv : ConventionalBelow info) (hinit : pmmInit (some info) = .ok s₀) : BootedBelow info s₀ := by
  have hbooted := booted_of_pmmInit (hconv.endsAfterStart hmap) hinit
  have htotal := hbooted.toNat_totalFrames hmap
  refine ⟨hbooted, ?_, ?_⟩
  · rw [htotal, countedTotal_eq_conventionalPages hmap.aligned hconv]
  · rw [htotal]
    exact countedTotal_le hmap

/-- Frames are returned within the bound and outside what boot marked; every such frame is returned
by some run. -/
theorem BootedBelow.returned_iff {info : BootInfo} {s₀ : State} (h : BootedBelow info s₀)
    {mayFree : Ledger → UInt64 → Prop}
    (hmay : ∀ l a, l.owned ⊆ l.returned → mayFree l a → onceReturned l a) :
    (∀ s l, Run mayFree s₀ s l → ∀ f ∈ l.returned, info.Conventional f) ↔ GapFree info := by
  constructor
  · intro hruns f hpos hlt hfree
    rw [← h.totalFrames] at hlt
    rw [← h.booted.used] at hfree
    obtain ⟨s, l, hrun, -, hf⟩ := Run.reaches mayFree (hlt.trans_le h.inBitmap) hpos hlt hfree
    exact hruns s l hrun f hf
  · intro hgap s l hrun f hf
    obtain ⟨hpos, hlt, -, hfree⟩ := (hrun.grounded hmay).returned f hf
    rw [h.totalFrames] at hlt
    rw [h.booted.used] at hfree
    exact hgap f hpos hlt hfree

/-- **Conventional memory only, exactly when.** For aligned, disjoint descriptors below 64 GiB: in every
run after `pmm_init` that frees only frames once returned, every frame returned lies entirely
inside a conventional descriptor, if and only if every frame from 1 up to the number of
conventional pages that no reserved region covers does. -/
theorem conventional_only_iff {info : BootInfo} {s₀ : State} (hmap : info.MapWellFormed)
    (hbelow : ∀ d ∈ info.descriptors, d.endByte ≤ 2 ^ 36) (hinit : pmmInit (some info) = .ok s₀) :
    (∀ s l, Run onceReturned s₀ s l → ∀ f ∈ l.returned, info.Conventional f) ↔ GapFree info :=
  (bootedBelow hmap (fun d hd _ => hbelow d hd) hinit).returned_iff (fun _ _ _ h => h)

/-- Two MiB of conventional memory from address 0 -/
def flatMemory : EfiMemoryDescriptor := ⟨efiConventionalMemory, 0, 512⟩

theorem initiallyUsed_oneEntryInfo (d : EfiMemoryDescriptor) :
    initiallyUsed (oneEntryInfo d) = {256} := by
  have hregions : reservedRegions (oneEntryInfo d) =
      [⟨0x100000, 160⟩, ⟨0x100200, 48⟩, ⟨0, 0⟩, ⟨0, 0⟩, ⟨0, 0⟩] := rfl
  rw [initiallyUsed, if_pos (hasMap_oneEntryInfo d), hregions]
  decide

theorem pmmInit_oneEntryInfo {d : EfiMemoryDescriptor} (haligned : 4096 ∣ d.physicalStart.toNat)
    (hbelow : d.endByte ≤ 2 ^ 36) : ∃ s₀, pmmInit (some (oneEntryInfo d)) = .ok s₀ := by
  obtain ⟨s₀, hs₀, -⟩ := pmmInit_runs
    ((conventionalBelow_oneEntryInfo hbelow).endsAfterStart (mapWellFormed_oneEntryInfo haligned))
    (fun _ r hr => (below_oneEntryInfo d r hr).inBitmap)
  exact ⟨s₀, hs₀⟩

theorem conventional_flatMemory {f : Nat} (hf : f < 512) :
    (oneEntryInfo flatMemory).Conventional f := by
  refine ⟨flatMemory, by rw [descriptors_oneEntryInfo]; exact List.mem_singleton_self _, rfl, ?_⟩
  intro b hb
  have hend : flatMemory.endByte = 2097152 := by decide
  have hstart : flatMemory.physicalStart.toNat = 0 := by decide
  refine ⟨?_, ?_⟩
  · rw [hstart]
    exact Nat.zero_le b
  · rw [hend]
    omega

theorem conventionalPages_oneEntryInfo {d : EfiMemoryDescriptor} (h : d.IsConventional) :
    conventionalPages (oneEntryInfo d).descriptors = d.numberOfPages.toNat := by
  rw [descriptors_oneEntryInfo, conventionalPages, if_pos h]
  rfl

theorem gapFree_flatMemory : GapFree (oneEntryInfo flatMemory) := by
  intro f _ hlt _
  rw [conventionalPages_oneEntryInfo (d := flatMemory) rfl] at hlt
  exact conventional_flatMemory hlt

theorem conventional_only_flatMemory :
    ∃ s₀, pmmInit (some (oneEntryInfo flatMemory)) = .ok s₀ ∧
      ∀ s l, Run onceReturned s₀ s l → ∀ f ∈ l.returned, (oneEntryInfo flatMemory).Conventional f := by
  obtain ⟨s₀, hs₀⟩ := pmmInit_oneEntryInfo (d := flatMemory) (by decide) (by decide)
  refine ⟨s₀, hs₀, (conventional_only_iff (mapWellFormed_oneEntryInfo (by decide)) ?_ hs₀).mpr
    gapFree_flatMemory⟩
  rw [descriptors_oneEntryInfo]
  simp only [List.mem_singleton, forall_eq]
  decide

/-- No byte of the first MiB is described when memory starts at 1 MiB. -/
theorem not_conventional_lowPages {f : Nat} (hf : f < 256) :
    ¬ (oneEntryInfo lowPages).Conventional f := by
  rintro ⟨d, hd, -, hcovers⟩
  rw [descriptors_oneEntryInfo, List.mem_singleton] at hd
  subst hd
  have hstart : lowPages.physicalStart.toNat = 1048576 := by decide
  have hfirst := (hcovers (f * 4096) (by omega)).1
  omega

/-- The first allocation on a machine whose memory starts at 1 MiB: frame 1 is unmarked and below the
number of conventional pages, and is returned. -/
theorem first_frame_lowPages :
    ∃ s₀ s', pmmInit (some (oneEntryInfo lowPages)) = .ok s₀ ∧
      BootedBelow (oneEntryInfo lowPages) s₀ ∧ pmmAllocFrame s₀ = .ok (frameAddress 1, s') := by
  obtain ⟨s₀, hs₀⟩ := pmmInit_oneEntryInfo (d := lowPages) (by decide) (by decide)
  have hboot := bootedBelow mapWellFormed_lowPages conventionalBelow_lowPages hs₀
  obtain ⟨a, s', hs'⟩ := pmmAllocFrame_runs hboot.inBitmap
  have hfree : 1 ∉ s₀.used := by
    rw [hboot.booted.used, initiallyUsed_oneEntryInfo]
    decide
  have htotal : s₀.totalFrames.toNat = 16 := by
    rw [hboot.totalFrames, conventionalPages_oneEntryInfo (d := lowPages) rfl]
    decide
  obtain ⟨rfl, -, -⟩ := pmmAllocFrame_lowest hs' (le_refl 1) (by omega) hfree fun g hg hlt => by omega
  exact ⟨s₀, s', hs₀, hboot, hs'⟩

/-- Memory from 1 MiB on: `pmm_alloc_frame` returns 0x1000, which no descriptor describes. -/
theorem hole_hands_out_unlisted_frame :
    (oneEntryInfo lowPages).MapWellFormed ∧
      (∀ d ∈ (oneEntryInfo lowPages).descriptors, d.endByte ≤ 2 ^ 36) ∧
      ∃ s₀ s', pmmInit (some (oneEntryInfo lowPages)) = .ok s₀ ∧
        pmmAllocFrame s₀ = .ok (0x1000, s') ∧ ¬ (oneEntryInfo lowPages).Conventional 1 := by
  refine ⟨mapWellFormed_lowPages, ?_, ?_⟩
  · rw [descriptors_oneEntryInfo]
    simp only [List.mem_singleton, forall_eq]
    decide
  · obtain ⟨s₀, s', hs₀, -, hs'⟩ := first_frame_lowPages
    exact ⟨s₀, s', hs₀, hs', not_conventional_lowPages (by decide)⟩

/-! ## The free count -/

/-- The conventional frames that touch no reserved region and are not allocated -/
def freeConventional (info : BootInfo) (l : Ledger) : Set Nat :=
  {f | info.Conventional f ∧ (∀ r ∈ reservedRegions info, ¬ r.Touches f) ∧ f ∉ l.owned}

/-- `pmm_free_frames()` is the number of those frames, and at most `total_frames`. -/
def AccountingExact (info : BootInfo) (s : State) (l : Ledger) : Prop :=
  (pmmFreeFrames s).toNat = (freeConventional info l).ncard ∧ pmmFreeFrames s ≤ s.totalFrames

/-- A counter that makes up the difference between `C` and `U` modulo 2^64 counts `C \ V`, where
`V ⊆ U`, exactly when all of `U` is in both. -/
theorem free_eq_card_iff {U V C : Finset Nat} {free : UInt64} (hV : V ⊆ U) (hU : U.card ≤ 2 ^ 24)
    (hC : C.card ≤ 2 ^ 24) (hbalance : free + UInt64.ofNat U.card = UInt64.ofNat C.card) :
    free.toNat = (C \ V).card ↔ U ⊆ C ∩ V := by
  have hsub : C ∩ V ⊆ U := Finset.inter_subset_right.trans hV
  have hle := Finset.card_le_card hsub
  have hsplit := Finset.card_sdiff_add_card_inter C V
  have hmod := congrArg UInt64.toNat hbalance
  rw [UInt64.toNat_add, UInt64.toNat_ofNat', UInt64.toNat_ofNat'] at hmod
  -- The cardinalities are far below 2^64: the counter is `C - U`, or has wrapped below zero.
  have hfree := free.toNat_lt
  constructor
  · intro heq
    have hcard : U.card ≤ (C ∩ V).card := by omega
    rw [Finset.eq_of_subset_of_card_le hsub hcard]
  · intro hall
    have hcard := Finset.card_le_card hall
    omega

/-- The frames boot marked that a reserved region does touch -/
noncomputable def touchedFrames (info : BootInfo) : Finset Nat :=
  open Classical in
  (initiallyUsed info).filter fun f => ∃ r ∈ reservedRegions info, r.Touches f

theorem mem_touchedFrames {info : BootInfo} {f : Nat} :
    f ∈ touchedFrames info ↔ f ∈ initiallyUsed info ∧ ∃ r ∈ reservedRegions info, r.Touches f := by
  classical
  rw [touchedFrames, Finset.mem_filter]

theorem hasMap_of_conventional {info : BootInfo} {f : Nat} (h : info.Conventional f) : info.HasMap := by
  by_contra hnone
  obtain ⟨d, hd, -⟩ := h
  rw [BootInfo.descriptors, if_neg hnone] at hd
  cases hd

theorem freeConventional_eq {info : BootInfo} (hmap : info.MapWellFormed)
    (hconv : ConventionalBelow info) (hregions : ∀ r ∈ reservedRegions info, r.Below) (l : Ledger) :
    freeConventional info l = ↑(countedSet info.descriptors \ (touchedFrames info ∪ l.owned)) := by
  ext f
  rw [Finset.mem_coe, Finset.mem_sdiff, Finset.mem_union, not_or, mem_countedSet_iff hmap hconv,
    mem_touchedFrames]
  constructor
  · rintro ⟨hf, huntouched, hfree⟩
    refine ⟨hf, ?_, hfree⟩
    rintro ⟨-, r, hr, htouch⟩
    exact huntouched r hr htouch
  · rintro ⟨hf, huntouched, hfree⟩
    refine ⟨hf, ?_, hfree⟩
    intro r hr htouch
    apply huntouched
    refine ⟨?_, r, hr, htouch⟩
    -- A frame that a region touches is among those it was rounded out to.
    rw [initiallyUsed, if_pos (hasMap_of_conventional hf), mem_framesOf]
    exact ⟨r, hr, (hregions r hr).mem_frames htouch⟩

theorem card_used_le (s : State) : s.used.card ≤ 2 ^ 24 := by
  have hsub : s.used ⊆ Finset.range pmmMaxFrames :=
    fun f hf => Finset.mem_range.mpr (lt_of_mem_used hf)
  have hcard := Finset.card_le_card hsub
  rw [Finset.card_range, pmmMaxFrames_eq] at hcard
  exact hcard

/-- In a reachable state the count is exact if and only if every marked frame is conventional and is
allocated or touches a reserved region. -/
theorem freeCount_iff {info : BootInfo} {s₀ s : State} {l : Ledger} (hmap : info.MapWellFormed)
    (hconv : ConventionalBelow info) (hregions : ∀ r ∈ reservedRegions info, r.Below)
    (hboot : BootedBelow info s₀) (hrun : Run currentlyOwned s₀ s l) :
    (pmmFreeFrames s).toNat = (freeConventional info l).ncard ↔
      (∀ f ∈ l.owned, info.Conventional f) ∧
        ∀ f ∈ initiallyUsed info, info.Conventional f ∧ ∃ r ∈ reservedRegions info, r.Touches f := by
  have hsettled := hrun.settled
  have hused : s.used = initiallyUsed info ∪ l.owned := by rw [hsettled.used, hboot.booted.used]
  have hcounted := card_countedSet hmap.aligned hmap.disjoint
  have htouched : touchedFrames info ∪ l.owned ⊆ s.used := by
    rw [hused]
    exact Finset.union_subset_union_left (fun f hf => (mem_touchedFrames.mp hf).1)
  have hbalance : s.freeFrames + UInt64.ofNat s.used.card =
      UInt64.ofNat (countedSet info.descriptors).card := by
    rw [hcounted, ← hboot.booted.balance, ← hsettled.balance]
    rfl
  have hcard : (countedSet info.descriptors).card ≤ 2 ^ 24 := by
    rw [hcounted]
    exact countedTotal_le hmap
  have hcount := free_eq_card_iff htouched (card_used_le s) hcard hbalance
  rw [freeConventional_eq hmap hconv hregions, Set.ncard_coe_finset, pmmFreeFrames, hcount]
  constructor
  · intro hall
    refine ⟨fun f hf => ?_, fun f hf => ?_⟩
    · have hmem := hall (by rw [hused]; exact Finset.mem_union_right _ hf)
      exact (mem_countedSet_iff hmap hconv).mp (Finset.mem_inter.mp hmem).1
    · obtain ⟨hc, hv⟩ := Finset.mem_inter.mp (hall (by rw [hused]; exact Finset.mem_union_left _ hf))
      refine ⟨(mem_countedSet_iff hmap hconv).mp hc, ?_⟩
      rcases Finset.mem_union.mp hv with htouch | howned
      · exact (mem_touchedFrames.mp htouch).2
      · rw [← hboot.booted.used] at hf
        exact absurd howned (Finset.disjoint_left.mp hsettled.disjoint hf)
  · rintro ⟨howned, hreserved⟩
    intro f hf
    rw [hused] at hf
    rw [Finset.mem_inter, mem_countedSet_iff hmap hconv]
    rcases Finset.mem_union.mp hf with hf | hf
    · obtain ⟨hc, htouch⟩ := hreserved f hf
      exact ⟨hc, Finset.mem_union_left _ (mem_touchedFrames.mpr ⟨hf, htouch⟩)⟩
    · exact ⟨howned f hf, Finset.mem_union_right _ hf⟩

/-- An exact count is at most `total_frames`: all conventional frames are counted there. -/
theorem accountingExact_iff_freeCount {info : BootInfo} {s₀ s : State} {l : Ledger}
    (hmap : info.MapWellFormed) (hconv : ConventionalBelow info)
    (hregions : ∀ r ∈ reservedRegions info, r.Below) (hboot : BootedBelow info s₀)
    (hrun : Run currentlyOwned s₀ s l) :
    AccountingExact info s l ↔ (pmmFreeFrames s).toNat = (freeConventional info l).ncard := by
  refine ⟨fun h => h.1, fun hexact => ⟨hexact, ?_⟩⟩
  rw [UInt64.le_iff_toNat_le, hexact, freeConventional_eq hmap hconv hregions, Set.ncard_coe_finset,
    hrun.totalFrames, hboot.booted.toNat_totalFrames hmap,
    ← card_countedSet hmap.aligned hmap.disjoint]
  exact Finset.card_le_card Finset.sdiff_subset

/-- **Free-frame accounting, exactly when.** For aligned, disjoint descriptors with conventional memory
and reserved regions below 64 GiB: `pmm_free_frames()` is right after `pmm_init` and throughout every
run that frees only owned frames, if and only if every frame the rounded-out reserved regions cover
is conventional and shares a byte with one of them, and every other frame from 1 up to the number of
conventional pages is conventional. -/
theorem accounting_exact_iff {info : BootInfo} (hmap : info.MapWellFormed)
    (hconv : ConventionalBelow info) (hregions : ∀ r ∈ reservedRegions info, r.Below) :
    ∃ s₀, pmmInit (some info) = .ok s₀ ∧
      ((∀ s l, Run currentlyOwned s₀ s l → AccountingExact info s l) ↔
        GapFree info ∧ ∀ f ∈ initiallyUsed info,
          info.Conventional f ∧ ∃ r ∈ reservedRegions info, r.Touches f) := by
  obtain ⟨s₀, hs₀, -⟩ := pmmInit_runs (hconv.endsAfterStart hmap)
    (fun _ r hr => (hregions r hr).inBitmap)
  have hboot := bootedBelow hmap hconv hs₀
  have hexact : ∀ s l, Run currentlyOwned s₀ s l → (AccountingExact info s l ↔ _) :=
    fun s l hrun => (accountingExact_iff_freeCount hmap hconv hregions hboot hrun).trans
      (freeCount_iff hmap hconv hregions hboot hrun)
  -- Some run owns every unmarked frame below the bound; exactness there makes the frame conventional.
  refine ⟨s₀, hs₀, ?_, ?_⟩
  · intro hruns
    refine ⟨?_, ((hexact s₀ _ .start).mp (hruns s₀ _ .start)).2⟩
    intro f hpos hlt hfree
    rw [← hboot.totalFrames] at hlt
    rw [← hboot.booted.used] at hfree
    obtain ⟨s, l, hrun, hf, -⟩ := Run.reaches currentlyOwned (hlt.trans_le hboot.inBitmap) hpos hlt hfree
    exact ((hexact s l hrun).mp (hruns s l hrun)).1 f hf
  · rintro ⟨hgap, hreserved⟩ s l hrun
    refine (hexact s l hrun).mpr ⟨?_, hreserved⟩
    intro f hf
    have hground := hrun.grounded onceReturned_of_currentlyOwned
    exact (hboot.returned_iff onceReturned_of_currentlyOwned).mpr hgap s l hrun f (hground.owned hf)

theorem accounting_exact_flatMemory :
    ∃ s₀, pmmInit (some (oneEntryInfo flatMemory)) = .ok s₀ ∧
      ∀ s l, Run currentlyOwned s₀ s l → AccountingExact (oneEntryInfo flatMemory) s l := by
  obtain ⟨s₀, hs₀, hiff⟩ := accounting_exact_iff
    (mapWellFormed_oneEntryInfo (d := flatMemory) (by decide))
    (conventionalBelow_oneEntryInfo (by decide)) (below_oneEntryInfo flatMemory)
  refine ⟨s₀, hs₀, hiff.mpr ⟨gapFree_flatMemory, fun f hf => ?_⟩⟩
  rw [initiallyUsed_oneEntryInfo, Finset.mem_singleton] at hf
  subst hf
  refine ⟨conventional_flatMemory (by decide), ⟨0x100000, 160⟩, ?_, 0x100000, ?_⟩
  · exact List.mem_cons_self
  · decide

/-- Memory from 1 MiB on: after one allocation `pmm_free_frames()` has counted off a frame that was
never counted. -/
theorem free_count_wrong_after_allocation :
    (oneEntryInfo lowPages).MapWellFormed ∧ ConventionalBelow (oneEntryInfo lowPages) ∧
      (∀ r ∈ reservedRegions (oneEntryInfo lowPages), r.Below) ∧
      ∃ s₀ s' a, pmmInit (some (oneEntryInfo lowPages)) = .ok s₀ ∧ pmmAllocFrame s₀ = .ok (a, s') ∧
        (pmmFreeFrames s').toNat ≠
          (freeConventional (oneEntryInfo lowPages) (Ledger.empty.grant a 1)).ncard := by
  refine ⟨mapWellFormed_lowPages, conventionalBelow_lowPages, below_oneEntryInfo lowPages, ?_⟩
  obtain ⟨s₀, s', hs₀, hboot, hs'⟩ := first_frame_lowPages
  refine ⟨s₀, s', _, hs₀, hs', fun hcount => ?_⟩
  have hrun : Run currentlyOwned s₀ s' (Ledger.empty.grant (frameAddress 1) 1) :=
    Run.start.step (.allocFrame hs')
  have howned := ((freeCount_iff mapWellFormed_lowPages conventionalBelow_lowPages
    (below_oneEntryInfo lowPages) hboot hrun).mp hcount).1
  refine not_conventional_lowPages (f := 1) (by decide) (howned 1 ?_)
  apply Finset.mem_union_right
  rw [grantedFrames_frameAddress (le_refl 1) (by rw [pmmMaxFrames_eq]; decide)]
  decide

end MinOS.Pmm
