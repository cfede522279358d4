/-
# MinOS.Vmm.Window — allocated frames lie inside the mapped window.

The kernel reaches an allocated frame through the direct map. Three computations have to agree for that:
`update_boot_info` sums the sizes of all descriptors, saturating; `pmm_init` counts the conventional
frames and bounds frame numbers by the count; `vmm_init` clamps the sum to 64 GiB, raises it to the end
of the kernel image and the framebuffer, and rounds it up to 2 MiB pages. A sum that does not wrap is at
least the conventional part of it, and that is all `allocations_inside_window` needs.
-/
import MinOS.Vmm.Boot

namespace MinOS.Vmm

open MinOS.Boot
open MinOS.Pmm (conventionalPages ConventionalBelow reservedRegions pmmInit pmmAllocFrame pmmAllocFrames
  Run anyAddress bootedBelow Grant frameAddress toNat_frameAddress)

/-! ## The total that `update_boot_info` computes -/

theorem toNat_uint64Max : uint64Max.toNat = 2 ^ 64 - 1 := by decide

theorem toNat_addSaturating (left right : UInt64) :
    (addSaturating left right).toNat = min (left.toNat + right.toNat) (2 ^ 64 - 1) := by
  have hl := left.toNat_lt
  have hr := right.toNat_lt
  have hle : left ≤ uint64Max := by
    rw [UInt64.le_iff_toNat_le, toNat_uint64Max]
    omega
  rw [addSaturating]
  split
  · rename_i h
    rw [gt_iff_lt, UInt64.lt_iff_toNat_lt, UInt64.toNat_sub_of_le _ _ hle, toNat_uint64Max] at h
    rw [toNat_uint64Max]
    omega
  · rename_i h
    rw [gt_iff_lt, UInt64.lt_iff_toNat_lt, UInt64.toNat_sub_of_le _ _ hle, toNat_uint64Max] at h
    rw [UInt64.toNat_add]
    omega

theorem toNat_regionSize (d : EfiMemoryDescriptor) :
    (regionSize d).toNat = min (d.numberOfPages.toNat * 4096) (2 ^ 64 - 1) := by
  have hmax : (uint64Max / 4096).toNat = 2 ^ 52 - 1 := by decide
  have h4096 : (4096 : UInt64).toNat = 4096 := rfl
  rw [regionSize]
  split
  · rename_i h
    rw [gt_iff_lt, UInt64.lt_iff_toNat_lt, hmax] at h
    rw [toNat_uint64Max]
    omega
  · rename_i h
    rw [gt_iff_lt, UInt64.lt_iff_toNat_lt, hmax] at h
    rw [UInt64.toNat_mul, h4096]
    omega

/-- The sum over all descriptors is at least the conventional part, unless it is saturated. -/
theorem le_sumRegions :
    ∀ (ds : List EfiMemoryDescriptor) (sums : UInt64 × UInt64),
      min (sums.1.toNat + conventionalPages ds * 4096) (2 ^ 64 - 1) ≤
        (ds.foldl sumRegion sums).1.toNat := by
  intro ds
  induction ds with
  | nil =>
    intro sums
    simp only [conventionalPages, List.foldl_nil]
    omega
  | cons d ds ih =>
    intro sums
    have hpages : (if d.IsConventional then d.numberOfPages.toNat else 0) ≤ d.numberOfPages.toNat := by
      split
      · exact le_refl _
      · exact Nat.zero_le _
    have hrest := ih (sumRegion sums d)
    have hsum : (sumRegion sums d).1.toNat =
        min (sums.1.toNat + min (d.numberOfPages.toNat * 4096) (2 ^ 64 - 1)) (2 ^ 64 - 1) := by
      rw [sumRegion, toNat_addSaturating, toNat_regionSize]
    -- A sum that saturates is 2^64 - 1 from there on, which the minimum on the left allows for.
    rw [hsum] at hrest
    rw [conventionalPages, List.foldl_cons]
    omega

/-- `total_memory_bytes` covers the conventional pages of the map it was computed from. -/
theorem le_totalMemoryBytes (info : BootInfo) (memMap mapSize descSize : UInt64) (descVer : UInt32)
    (descriptorAt : Nat → EfiMemoryDescriptor) :
    min (conventionalPages
        (updateBootInfo info memMap mapSize descSize descVer descriptorAt).descriptors * 4096)
        (2 ^ 64 - 1) ≤
      (updateBootInfo info memMap mapSize descSize descVer descriptorAt).totalMemoryBytes.toNat := by
  rw [updateBootInfo]
  generalize info.withMap memMap mapSize descSize descVer descriptorAt = placed
  by_cases hmap : placed.HasMap
  · have hsum := le_sumRegions placed.descriptors (0, 0)
    rw [UInt64.toNat_zero, Nat.zero_add] at hsum
    dsimp only
    rw [if_pos hmap]
    exact hsum
  · dsimp only
    rw [if_neg hmap, BootInfo.descriptors, if_neg hmap]
    exact Nat.le_trans (Nat.min_le_left _ _) (Nat.zero_le _)

/-! ## The window -/

/-- The `n` frames from address `a` end inside the mapped window. -/
def InsideWindow (s : State) (a : UInt64) (n : Nat) : Prop :=
  ∀ j < n, a.toNat + j * 4096 + 4096 ≤ (vmmMappedBytes s).toNat

theorem insideWindow_of_grant {q q' : Pmm.State} {a : UInt64} {n : Nat} {m : State}
    (h : Grant q n a q') (ha : a ≠ 0) (hcover : q.totalFrames.toNat * 4096 ≤ (vmmMappedBytes m).toNat) :
    InsideWindow m a n := by
  unfold InsideWindow
  generalize (vmmMappedBytes m).toNat = window at hcover ⊢
  cases h with
  | refused => exact absurd rfl ha
  | @granted f _ hn _ htotal hmax _ _ =>
    intro j hj
    have hend : f + j + 1 ≤ q.totalFrames.toNat := by omega
    rw [toNat_frameAddress (by omega)]
    calc
      f * 4096 + j * 4096 + 4096 = (f + j + 1) * 4096 := by omega
      _ ≤ q.totalFrames.toNat * 4096 := Nat.mul_le_mul_right 4096 hend
      _ ≤ window := hcover

/-- **The window covers the allocator.** For aligned, disjoint descriptors with conventional memory and
reserved regions at or below 64 GiB and `total_memory_bytes` computed from them, every frame that a run of
allocations after `vmm_init` returns lies below `vmm_mapped_bytes()`, whatever is freed in between. -/
theorem allocations_inside_window (info : BootInfo) (memMap mapSize descSize : UInt64)
    (descVer : UInt32) (descriptorAt : Nat → EfiMemoryDescriptor)
    (hmap : (updateBootInfo info memMap mapSize descSize descVer descriptorAt).MapWellFormed)
    (hconv : ConventionalBelow (updateBootInfo info memMap mapSize descSize descVer descriptorAt))
    (hregions : ∀ r ∈ reservedRegions
      (updateBootInfo info memMap mapSize descSize descVer descriptorAt), r.Below) :
    ∃ s₀, pmmInit (some (updateBootInfo info memMap mapSize descSize descVer descriptorAt)) = .ok s₀ ∧
      ∀ m m' : State, m.pmm = s₀ →
        vmmInit (some (updateBootInfo info memMap mapSize descSize descVer descriptorAt)) m =
          .ok (.loaded, m') →
        ∀ q l, Run anyAddress m'.pmm q l →
          (∀ a q', pmmAllocFrame q = .ok (a, q') → a ≠ 0 → InsideWindow m' a 1) ∧
          ∀ count a q', pmmAllocFrames count q = .ok (a, q') → a ≠ 0 →
            InsideWindow m' a count.toNat := by
  have hbytes := le_totalMemoryBytes info memMap mapSize descSize descVer descriptorAt
  generalize updateBootInfo info memMap mapSize descSize descVer descriptorAt = g at *
  obtain ⟨s₀, hs₀, -⟩ := Pmm.pmmInit_runs (hconv.endsAfterStart hmap)
    (fun _ r hr => (hregions r hr).inBitmap)
  have hboot := bootedBelow hmap hconv hs₀
  refine ⟨s₀, hs₀, ?_⟩
  rintro m m' rfl hvmm q l hrun
  obtain ⟨hpages, htotal⟩ := vmmInit_steady hvmm
  have hqtotal : q.totalFrames = m.pmm.totalFrames := by
    rw [hrun.totalFrames, htotal]
  -- Conventional bytes, `total_memory_bytes`, `map_bytes`, the window: each at most the next.
  have hcover : q.totalFrames.toNat * 4096 ≤ (vmmMappedBytes m').toNat := by
    obtain ⟨-, -, hmin⟩ := toNat_mapBytes (some g)
    have hwindow := toNat_bootstrapPages (some g)
    have hmax := hboot.inBitmap
    rw [Pmm.pmmMaxFrames_eq, hboot.totalFrames] at hmax
    have hmem := hmin g rfl
    rw [hqtotal, hboot.totalFrames, toNat_vmmMappedBytes hpages]
    omega
  refine ⟨fun a q' hq ha => ?_, fun count a q' hq ha => ?_⟩
  · exact insideWindow_of_grant (Pmm.pmmAllocFrame_grant hq) ha hcover
  · exact insideWindow_of_grant (Pmm.pmmAllocFrames_grant hq) ha hcover

/-- The boot info of a machine with 2 MiB of conventional memory from address 0, as the loader fills it -/
def loadedInfo : BootInfo :=
  updateBootInfo (Pmm.oneEntryInfo Pmm.flatMemory) 0x100200 48 48 1 fun _ => Pmm.flatMemory

/-- The loader changes nothing but the totals: the map was already in place. -/
theorem loadedInfo_eq :
    ∃ total usable, loadedInfo = { Pmm.oneEntryInfo Pmm.flatMemory with
      totalMemoryBytes := total, usableMemoryBytes := usable } := by
  rw [loadedInfo, updateBootInfo]
  exact ⟨_, _, if_pos (Pmm.hasMap_oneEntryInfo Pmm.flatMemory)⟩

theorem allocations_inside_window_flatMemory :
    ∃ s₀ m', pmmInit (some loadedInfo) = .ok s₀ ∧
      vmmInit (some loadedInfo) (bareState s₀) = .ok (.loaded, m') ∧
      ∀ q l, Run anyAddress m'.pmm q l →
        (∀ a q', pmmAllocFrame q = .ok (a, q') → a ≠ 0 → InsideWindow m' a 1) ∧
        ∀ count a q', pmmAllocFrames count q = .ok (a, q') → a ≠ 0 →
          InsideWindow m' a count.toNat := by
  obtain ⟨total, usable, hinfo⟩ := loadedInfo_eq
  have hflat := Pmm.mapWellFormed_oneEntryInfo (d := Pmm.flatMemory) (by decide)
  have hmap : loadedInfo.MapWellFormed := by
    rw [hinfo]
    exact ⟨hflat.aligned, hflat.disjoint⟩
  have hconv : ConventionalBelow loadedInfo := by
    rw [hinfo]
    exact Pmm.conventionalBelow_oneEntryInfo (d := Pmm.flatMemory) (by decide)
  have hbelow : ∀ r ∈ reservedRegions loadedInfo, r.Below := by
    rw [hinfo]
    exact Pmm.below_oneEntryInfo Pmm.flatMemory
  obtain ⟨s₀, hs₀, hall⟩ := allocations_inside_window _ _ _ _ _ _ hmap hconv hbelow
  obtain ⟨m', hm'⟩ := vmmInit_of_booted (bootedBelow hmap hconv hs₀)
    (by rw [hinfo]; exact Pmm.initiallyUsed_oneEntryInfo Pmm.flatMemory)
    (by rw [hinfo]; exact Pmm.conventionalPages_oneEntryInfo (d := Pmm.flatMemory) rfl)
  exact ⟨s₀, m', hs₀, hm', hall (bareState s₀) m' rfl hm'⟩

end MinOS.Vmm
