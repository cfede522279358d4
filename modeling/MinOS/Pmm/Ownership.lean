/-
# MinOS.Pmm.Ownership — no bitmap fault, no frame with two owners.

`bitmap_stays_in_range` is the safety half: when no conventional descriptor makes `e - s` wrap and every
reserved range lies in the bitmap, `pmm_init` leaves `total_frames` within the bitmap and no later call
indexes past it, whatever it is asked to free. Both conditions are about the boot info alone, and
neither is checked by the code: `total_frames_past_bitmap` is a machine with one page of memory
above 64 GiB.

`ownership_exclusive` is the other half: with everything below 64 GiB, an allocation never returns a frame
that is owned or that touches one of the reserved regions.
-/
import MinOS.Pmm.Runs

namespace MinOS.Pmm

open MinOS.Boot

/-! ## Regions in bytes -/

/-- The region and the frame share a byte. -/
def Region.Touches (r : Region) (f : Nat) : Prop :=
  ∃ b, r.base.toNat ≤ b ∧ b < r.base.toNat + r.size.toNat ∧ b / 4096 = f

/-- The region ends at or below 64 GiB. -/
def Region.Below (r : Region) : Prop := r.base.toNat + r.size.toNat ≤ 2 ^ 36

theorem Region.Below.toNat_lastFrame {r : Region} (h : r.Below) :
    r.lastFrame.toNat = (r.base.toNat + r.size.toNat + 4095) / 4096 := by
  have h4095 : (4095 : UInt64).toNat = 4095 := rfl
  unfold Region.Below at h
  rw [Region.lastFrame, toNat_div_4096, UInt64.toNat_add, UInt64.toNat_add, h4095]
  omega

theorem Region.Below.inBitmap {r : Region} (h : r.Below) : r.InBitmap := by
  intro _
  rw [h.toNat_lastFrame, pmmMaxFrames_eq]
  unfold Region.Below at h
  omega

/-- Rounding a region out to frames loses none that it touches. -/
theorem Region.Below.mem_frames {r : Region} {f : Nat} (h : r.Below) (hf : r.Touches f) :
    f ∈ r.frames := by
  obtain ⟨b, hbase, hend, hb⟩ := hf
  rw [Region.frames, frameRange, Finset.mem_Ico, h.toNat_lastFrame, Region.firstFrame, toNat_div_4096]
  omega

/-- Conventional memory ends at or below 64 GiB. -/
def ConventionalBelow (info : BootInfo) : Prop :=
  ∀ d ∈ info.descriptors, d.IsConventional → d.endByte ≤ 2 ^ 36

theorem toNat_clampedEnd_of_below {d : EfiMemoryDescriptor} (h : d.endByte ≤ 2 ^ 36) :
    (clampedEnd d).toNat = d.endByte := by
  have h4096 : (4096 : UInt64).toNat = 4096 := rfl
  unfold EfiMemoryDescriptor.endByte at h ⊢
  rw [toNat_clampedEnd, UInt64.toNat_add, UInt64.toNat_mul, h4096]
  omega

theorem ConventionalBelow.endsAfterStart {info : BootInfo} (hmap : info.MapWellFormed)
    (h : ConventionalBelow info) : ∀ d ∈ info.descriptors, EndsAfterStart d := by
  intro d hd hconv _
  rw [UInt64.le_iff_toNat_le, toNat_roundedStart (hmap.aligned d hd),
    toNat_clampedEnd_of_below (h d hd hconv)]
  exact Nat.le_add_right _ _

/-! ## The bitmap is never indexed out of range -/

/-- **Bitmap safety.** If no conventional descriptor ends before it starts once its end has been cut
to 64 bits and clamped, and every reserved range is empty or inside the bitmap, then `pmm_init` returns
with `total_frames` within the bitmap and no run of calls after it faults. -/
theorem bitmap_stays_in_range {info : BootInfo} (hmap : info.MapWellFormed)
    (hends : ∀ d ∈ info.descriptors, EndsAfterStart d)
    (hregions : info.HasMap → ∀ r ∈ reservedRegions info, r.InBitmap) :
    ∃ s₀, pmmInit (some info) = .ok s₀ ∧ s₀.totalFrames.toNat ≤ pmmMaxFrames ∧
      ∀ s l, Run anyAddress s₀ s l → NoFaultNext s := by
  obtain ⟨s₀, hs₀, hbooted⟩ := pmmInit_runs hends hregions
  have htotal : s₀.totalFrames.toNat ≤ pmmMaxFrames := by
    rw [hbooted.toNat_totalFrames hmap]
    exact countedTotal_le hmap
  exact ⟨s₀, hs₀, htotal, fun s l hrun => hrun.noFaultNext htotal⟩

/-- A boot info at 1 MiB with a memory map of one entry in the same frame, and no other region -/
def oneEntryInfo (d : EfiMemoryDescriptor) : BootInfo where
  self := 0x100000
  fbBase := 0
  fbSize := 0
  totalMemoryBytes := 0
  usableMemoryBytes := 0
  memoryMapSize := 48
  descriptorSize := 48
  descriptorVersion := 1
  memoryMap := 0x100200
  descriptorAt _ := d
  kernelImageBase := 0
  kernelImageSize := 0
  bootstrapStackBase := 0
  bootstrapStackSize := 0
  initrdBase := 0
  initrdSize := 0

theorem hasMap_oneEntryInfo (d : EfiMemoryDescriptor) : (oneEntryInfo d).HasMap :=
  ⟨(by decide : (0x100200 : UInt64) ≠ 0), (by decide : (48 : UInt64) ≠ 0)⟩

theorem descriptors_oneEntryInfo (d : EfiMemoryDescriptor) :
    (oneEntryInfo d).descriptors = [d] := by
  have hentries : ((48 : UInt64) / 48).toNat = 1 := by decide
  rw [BootInfo.descriptors, if_pos (hasMap_oneEntryInfo d)]
  show (List.range ((48 : UInt64) / 48).toNat).map _ = _
  rw [hentries]
  rfl

theorem mapWellFormed_oneEntryInfo {d : EfiMemoryDescriptor} (h : 4096 ∣ d.physicalStart.toNat) :
    (oneEntryInfo d).MapWellFormed := by
  constructor
  · intro d' hd'
    rw [descriptors_oneEntryInfo, List.mem_singleton] at hd'
    rwa [hd']
  · rw [descriptors_oneEntryInfo]
    exact List.pairwise_singleton _ _

theorem below_oneEntryInfo (d : EfiMemoryDescriptor) :
    ∀ r ∈ reservedRegions (oneEntryInfo d), r.Below := by
  have hregions : reservedRegions (oneEntryInfo d) =
      [⟨0x100000, 160⟩, ⟨0x100200, 48⟩, ⟨0, 0⟩, ⟨0, 0⟩, ⟨0, 0⟩] := rfl
  rw [hregions]
  simp only [List.mem_cons, List.not_mem_nil, or_false, Region.Below]
  rintro r (rfl | rfl | rfl | rfl | rfl) <;> decide

theorem conventionalBelow_oneEntryInfo {d : EfiMemoryDescriptor} (h : d.endByte ≤ 2 ^ 36) :
    ConventionalBelow (oneEntryInfo d) := by
  intro d' hd' _
  rw [descriptors_oneEntryInfo, List.mem_singleton] at hd'
  rwa [hd']

/-- Sixteen pages of conventional memory from 1 MiB -/
def lowPages : EfiMemoryDescriptor := ⟨efiConventionalMemory, 0x100000, 16⟩

theorem mapWellFormed_lowPages : (oneEntryInfo lowPages).MapWellFormed :=
  mapWellFormed_oneEntryInfo (by decide)

theorem conventionalBelow_lowPages : ConventionalBelow (oneEntryInfo lowPages) :=
  conventionalBelow_oneEntryInfo (by decide)

theorem bitmap_stays_in_range_lowPages :
    ∃ s₀, pmmInit (some (oneEntryInfo lowPages)) = .ok s₀ ∧ s₀.totalFrames.toNat ≤ pmmMaxFrames ∧
      ∀ s l, Run anyAddress s₀ s l → NoFaultNext s :=
  bitmap_stays_in_range mapWellFormed_lowPages
    (conventionalBelow_lowPages.endsAfterStart mapWellFormed_lowPages)
    (fun _ r hr => (below_oneEntryInfo lowPages r hr).inBitmap)

/-- One page of conventional memory just above 64 GiB -/
def highPage : EfiMemoryDescriptor := ⟨efiConventionalMemory, 0x1000001000, 1⟩

/-- The end of a page above 64 GiB is clamped below its start, and the difference wraps: `pmm_init`
returns with `total_frames = 2^52 - 1`. -/
theorem total_frames_past_bitmap :
    (oneEntryInfo highPage).MapWellFormed ∧
      ∃ s₀, pmmInit (some (oneEntryInfo highPage)) = .ok s₀ ∧
        pmmMaxFrames < s₀.totalFrames.toNat := by
  refine ⟨mapWellFormed_oneEntryInfo (by decide), ?_⟩
  have hcount : initDescriptors (oneEntryInfo highPage).descriptors State.zero =
      .ok { State.zero with totalFrames := 0xFFFFFFFFFFFFF } := by
    rw [descriptors_oneEntryInfo]
    rfl
  obtain ⟨s₀, hs₀, htakes⟩ := reserveRegions_takes (reservedRegions (oneEntryInfo highPage))
    { State.zero with totalFrames := 0xFFFFFFFFFFFFF }
    (fun r hr => (below_oneEntryInfo highPage r hr).inBitmap)
  refine ⟨s₀, ?_, ?_⟩
  · rw [pmmInit, if_pos (hasMap_oneEntryInfo highPage), hcount, Machine.ok_bind, hs₀]
  · rw [htakes.totalFrames, pmmMaxFrames_eq]
    decide

/-! ## A frame has one owner -/

/-- What an allocation of `n` frames that returned `a` must not have done -/
structure FreshGrant (info : BootInfo) (l : Ledger) (a : UInt64) (n : Nat) : Prop where
  aligned : a.toNat % 4096 = 0
  unowned : ∀ f, a.toNat / 4096 ≤ f → f < a.toNat / 4096 + n → f ∉ l.owned
  unreserved : ∀ f, a.toNat / 4096 ≤ f → f < a.toNat / 4096 + n →
    ∀ r ∈ reservedRegions info, ¬ r.Touches f

/-- An allocation from a reachable state is fresh: its frames were unmarked, and boot marked every
frame that a reserved region touches. -/
theorem Grant.fresh {info : BootInfo} {s₀ s s' : State} {l : Ledger} {a : UInt64} {n : Nat}
    (hbooted : Booted info s₀) (hbelow : ∀ r ∈ reservedRegions info, r.Below)
    (hrun : Run currentlyOwned s₀ s l) (h : Grant s n a s') (ha : a ≠ 0) :
    FreshGrant info l a n := by
  have hsettled := hrun.settled
  have hground := hrun.grounded onceReturned_of_currentlyOwned
  cases h with
  | refused => exact absurd rfl ha
  | @granted f _ hn hpos htotal hmax hfree _ =>
    have haddr := toNat_frameAddress (show f < pmmMaxFrames by omega)
    have hframe : f * 4096 / 4096 = f := by omega
    refine ⟨by omega, ?_, ?_⟩
    · intro g hge hlt howned
      rw [haddr, hframe] at hge hlt
      apply hfree g hge hlt
      rw [hsettled.used]
      exact Finset.mem_union_right _ howned
    · intro g hge hlt r hr htouch
      rw [haddr, hframe] at hge hlt
      apply hfree g hge hlt
      -- There is a memory map: without one `total_frames` is 0 and nothing is granted.
      have hmap : info.HasMap := by
        by_contra hnone
        have hzero : s₀.totalFrames = 0 := by
          rw [hbooted.totalFrames, countedTotal_of_not_hasMap hnone]
          rfl
        rw [hground.totalFrames, hzero, UInt64.toNat_zero] at htotal
        omega
      apply hground.marked
      rw [hbooted.used, initiallyUsed, if_pos hmap, mem_framesOf]
      exact ⟨r, hr, (hbelow r hr).mem_frames htouch⟩

/-- **Exclusive ownership.** With aligned, disjoint descriptors and with conventional memory and the
reserved regions below 64 GiB, in every run that frees only owned frames no call faults and every
address returned is page-aligned, its frames belong to nobody, and none of them touches a reserved
region. -/
theorem ownership_exclusive {info : BootInfo} (hmap : info.MapWellFormed)
    (hconv : ConventionalBelow info) (hregions : ∀ r ∈ reservedRegions info, r.Below) :
    ∃ s₀, pmmInit (some info) = .ok s₀ ∧ ∀ s l, Run currentlyOwned s₀ s l →
      NoFaultNext s ∧
      (∀ a s', pmmAllocFrame s = .ok (a, s') → a ≠ 0 → FreshGrant info l a 1) ∧
      ∀ count a s', pmmAllocFrames count s = .ok (a, s') → a ≠ 0 →
        FreshGrant info l a count.toNat := by
  have hends := hconv.endsAfterStart hmap
  obtain ⟨s₀, hs₀, hbooted⟩ := pmmInit_runs hends (fun _ r hr => (hregions r hr).inBitmap)
  have htotal : s₀.totalFrames.toNat ≤ pmmMaxFrames := by
    rw [hbooted.toNat_totalFrames hmap]
    exact countedTotal_le hmap
  refine ⟨s₀, hs₀, fun s l hrun => ⟨hrun.noFaultNext htotal, ?_, ?_⟩⟩
  · intro a s' h ha
    exact (pmmAllocFrame_grant h).fresh hbooted hregions hrun ha
  · intro count a s' h ha
    exact (pmmAllocFrames_grant h).fresh hbooted hregions hrun ha

theorem ownership_exclusive_lowPages :
    ∃ s₀, pmmInit (some (oneEntryInfo lowPages)) = .ok s₀ ∧ ∀ s l, Run currentlyOwned s₀ s l →
      NoFaultNext s ∧
      (∀ a s', pmmAllocFrame s = .ok (a, s') → a ≠ 0 → FreshGrant (oneEntryInfo lowPages) l a 1) ∧
      ∀ count a s', pmmAllocFrames count s = .ok (a, s') → a ≠ 0 →
        FreshGrant (oneEntryInfo lowPages) l a count.toNat :=
  ownership_exclusive mapWellFormed_lowPages conventionalBelow_lowPages (below_oneEntryInfo lowPages)

end MinOS.Pmm
