/-
# MinOS.Handoff — `boot/bootx64.c`: from the memory map to `kernel_enter`.

The firmware is a parameter: any state, and for each of the four services any answer that depends on it and
on the arguments, so that every sequence of responses is one of some firmware. The loader records its calls.

UEFI wants the key of the current memory map at `ExitBootServices`, and every call that allocates or frees
changes the map. The loader therefore has to make `GetMemoryMap` its last call before each attempt, and to
report to the kernel the map of that call. `Ready` says that it has, in the state before an attempt; both
ways to an attempt, the first one and the retry, establish it.
-/
import Mathlib.Data.List.Basic
import Mathlib.Algebra.Group.Nat.Defs
import MinOS.BootInfo

namespace MinOS.Boot

/-! ## `boot/efi.h` -/

/-- `EFI_ERROR_MASK` -/
def efiErrorMask : UInt64 := 0x8000000000000000

/-- `EFI_ERROR` -/
def efiError (status : UInt64) : Bool := status &&& efiErrorMask != 0

/-- `EFI_SUCCESS` -/
def efiSuccess : UInt64 := 0
/-- `EFI_INVALID_PARAMETER` -/
def efiInvalidParameter : UInt64 := efiErrorMask ||| 2
/-- `EFI_BUFFER_TOO_SMALL` -/
def efiBufferTooSmall : UInt64 := efiErrorMask ||| 5
/-- `EFI_OUT_OF_RESOURCES` -/
def efiOutOfResources : UInt64 := efiErrorMask ||| 12

/-- What `GetMemoryMap` returns and leaves in the places it is given; `descriptorAt i` is what lies
`i * DescriptorSize` bytes into the buffer -/
structure MapResponse where
  status : UInt64
  memoryMapSize : UInt64
  mapKey : UInt64
  descriptorSize : UInt64
  descriptorVersion : UInt32
  descriptorAt : Nat → EfiMemoryDescriptor

/-- What `AllocatePool` returns and leaves in `*Buffer` -/
structure PoolResponse where
  status : UInt64
  buffer : UInt64

/-- The boot services, over a state of the firmware -/
structure Firmware (σ : Type) where
  getMemoryMap : (memoryMapSize memoryMap : UInt64) → σ → MapResponse × σ
  allocatePool : (size : UInt64) → σ → PoolResponse × σ
  freePool : (buffer : UInt64) → σ → σ
  exitBootServices : (mapKey : UInt64) → σ → UInt64 × σ

/-- A call of a boot service, with its answer -/
inductive Call
  | getMemoryMap (buffer : UInt64) (response : MapResponse)
  | allocatePool (response : PoolResponse)
  | freePool (buffer : UInt64)
  | exitBootServices (mapKey status : UInt64)

/-- The buffers that are allocated after the calls, which come last one first -/
def allocated : List Call → List UInt64
  | [] => []
  | .allocatePool response :: calls =>
    if efiError response.status then allocated calls else response.buffer :: allocated calls
  | .freePool buffer :: calls => (allocated calls).erase buffer
  | _ :: calls => allocated calls

/-! ## `get_memory_map` -/

/-- The locals of `efi_main`, `g_boot_info`, the firmware and the calls made so far, last one first;
`descriptorAt` is the contents of the buffer `memMap` -/
structure Loader (σ : Type) where
  firmware : σ
  calls : List Call
  memMap : UInt64
  mapCapacity : UInt64
  mapSize : UInt64
  mapKey : UInt64
  descSize : UInt64
  descVer : UInt32
  descriptorAt : Nat → EfiMemoryDescriptor
  info : BootInfo

variable {σ : Type} (fw : Firmware σ)

/-- `if (*map) boot_services->FreePool(*map);` -/
def freeMap (l : Loader σ) : Loader σ :=
  if l.memMap = 0 then l
  else { l with
    firmware := fw.freePool l.memMap l.firmware
    calls := .freePool l.memMap :: l.calls }

/-- The error paths of `get_memory_map`: the map is freed -/
def dropMap (l : Loader σ) : Loader σ := { freeMap fw l with memMap := 0, mapCapacity := 0 }

/-- The answer of `GetMemoryMap` -/
def mapResponse (l : Loader σ) : MapResponse := (fw.getMemoryMap l.mapCapacity l.memMap l.firmware).1

/-- After the call of `GetMemoryMap` -/
def askMap (l : Loader σ) : Loader σ :=
  { l with
    firmware := (fw.getMemoryMap l.mapCapacity l.memMap l.firmware).2
    calls := .getMemoryMap l.memMap (mapResponse fw l) :: l.calls
    mapKey := (mapResponse fw l).mapKey
    descSize := (mapResponse fw l).descriptorSize
    descVer := (mapResponse fw l).descriptorVersion
    descriptorAt := (mapResponse fw l).descriptorAt }

/-- The larger buffer to ask for, or none if its size does not fit -/
def grownCapacity (required capacity : UInt64) : Option UInt64 :=
  let base := if required > capacity then required else capacity
  let increment := if base / 2 = 0 then 1 else base / 2
  if base > uint64Max - increment - 1 then none else some (base + increment + 1)

/-- The answer of `AllocatePool` -/
def poolResponse (size : UInt64) (l : Loader σ) : PoolResponse := (fw.allocatePool size l.firmware).1

/-- After the call of `AllocatePool` -/
def askPool (size : UInt64) (l : Loader σ) : Loader σ :=
  { l with
    firmware := (fw.allocatePool size l.firmware).2
    calls := .allocatePool (poolResponse fw size l) :: l.calls }

/-- `*map = new_map; *capacity = base + increment + 1;`, the old map freed -/
def replaceMap (buffer capacity : UInt64) (l : Loader σ) : Loader σ :=
  { freeMap fw l with memMap := buffer, mapCapacity := capacity }

/-- The branch for `EFI_BUFFER_TOO_SMALL`, from the size of the larger buffer on -/
def growMap (grown : Option UInt64) (l : Loader σ) : Option UInt64 × Loader σ :=
  match grown with
  | none => (some efiOutOfResources, dropMap fw l)
  | some capacity =>
    let p := poolResponse fw capacity l
    if efiError p.status then (some p.status, dropMap fw (askPool fw capacity l))
    else (none, replaceMap fw p.buffer capacity (askPool fw capacity l))

/-- The end of an iteration that got a map -/
def acceptMap (required : UInt64) (l : Loader σ) : Option UInt64 × Loader σ :=
  if l.memMap = 0 ∨ l.descSize = 0 then (some efiInvalidParameter, dropMap fw l)
  else (some efiSuccess, { l with mapSize := required })

/-- One iteration of `get_memory_map`: the status it returns, or none to go on -/
def getMemoryMapOnce (l : Loader σ) : Option UInt64 × Loader σ :=
  let r := mapResponse fw l
  if r.status = efiBufferTooSmall then
    growMap fw (grownCapacity r.memoryMapSize l.mapCapacity) (askMap fw l)
  else if efiError r.status then (some r.status, dropMap fw (askMap fw l))
  else acceptMap fw r.memoryMapSize (askMap fw l)

/-- A buffer only grows. -/
theorem lt_of_grownCapacity {required capacity grown : UInt64}
    (h : grownCapacity required capacity = some grown) : capacity.toNat < grown.toNat := by
  unfold grownCapacity at h
  dsimp only at h
  generalize hbase : (if required > capacity then required else capacity) = base at h
  have hle : capacity.toNat ≤ base.toNat := by
    rw [← hbase]
    split
    · rename_i hgt
      exact Nat.le_of_lt (UInt64.lt_iff_toNat_lt.mp hgt)
    · exact Nat.le_refl _
  generalize hinc : (if base / 2 = 0 then 1 else base / 2) = increment at h
  have hincLe : increment.toNat ≤ 2 ^ 63 := by
    rw [← hinc]
    split
    · decide
    · rw [UInt64.toNat_div]
      have hlt := base.toNat_lt
      have h2 : (2 : UInt64).toNat = 2 := rfl
      rw [h2]
      omega
  split at h
  · exact absurd h.symm (Option.some_ne_none _)
  · rename_i hfits
    have hgrown : base + increment + 1 = grown := Option.some.inj h
    have hbound := UInt64.not_lt.mp hfits
    rw [UInt64.le_iff_toNat_le, UInt64.toNat_sub, UInt64.toNat_sub] at hbound
    rw [← hgrown, UInt64.toNat_add, UInt64.toNat_add]
    have hmax : uint64Max.toNat = 2 ^ 64 - 1 := rfl
    have h1 : (1 : UInt64).toNat = 1 := rfl
    have hlt := base.toNat_lt
    omega

/-- What it takes to go on: a larger buffer that was allocated -/
theorem growMap_eq_none {grown : Option UInt64} {l l' : Loader σ} (h : growMap fw grown l = (none, l')) :
    ∃ capacity, grown = some capacity ∧ efiError (poolResponse fw capacity l).status = false ∧
      l' = replaceMap fw (poolResponse fw capacity l).buffer capacity (askPool fw capacity l) := by
  cases grown with
  | none =>
    simp only [growMap, Prod.mk.injEq, reduceCtorEq, false_and] at h
  | some capacity =>
    simp only [growMap] at h
    split at h
    · simp only [Prod.mk.injEq, reduceCtorEq, false_and] at h
    · rename_i hstatus
      exact ⟨capacity, rfl, Bool.eq_false_iff.mpr hstatus, (congrArg Prod.snd h).symm⟩

/-- Only the branch for `EFI_BUFFER_TOO_SMALL` goes on. -/
theorem getMemoryMapOnce_eq_none {l l' : Loader σ} (h : getMemoryMapOnce fw l = (none, l')) :
    growMap fw (grownCapacity (mapResponse fw l).memoryMapSize l.mapCapacity) (askMap fw l) =
      (none, l') := by
  simp only [getMemoryMapOnce, acceptMap] at h
  split at h
  · exact h
  · split at h
    · simp only [Prod.mk.injEq, reduceCtorEq, false_and] at h
    · split at h
      · simp only [Prod.mk.injEq, reduceCtorEq, false_and] at h
      · simp only [Prod.mk.injEq, reduceCtorEq, false_and] at h

/-- An iteration that goes on has a larger buffer. -/
theorem getMemoryMapOnce_grows {l l' : Loader σ} (h : getMemoryMapOnce fw l = (none, l')) :
    l.mapCapacity.toNat < l'.mapCapacity.toNat := by
  obtain ⟨capacity, hgrown, -, rfl⟩ := growMap_eq_none fw (getMemoryMapOnce_eq_none fw h)
  exact lt_of_grownCapacity hgrown

/-- `get_memory_map`: the status, with the map in the loader's locals -/
def getMemoryMap (l : Loader σ) : UInt64 × Loader σ :=
  match _h : getMemoryMapOnce fw l with
  | (some status, l') => (status, l')
  | (none, l') => getMemoryMap l'
termination_by 2 ^ 64 - l.mapCapacity.toNat
decreasing_by
  have hgrows := getMemoryMapOnce_grows fw _h
  have hlt := l'.mapCapacity.toNat_lt
  omega

/-! ## `efi_main` -/

/-- What `efi_main` knows about its own image: `&efi_main`, and the stack it prepared for the kernel -/
structure Image where
  efiMain : UInt64
  kernelStackBase : UInt64
  kernelStackSize : UInt64

/-- The graphics mode that `LocateProtocol` found -/
structure Gop where
  frameBufferBase : UInt64
  frameBufferSize : UInt64

/-- How `efi_main` ends: it returns to the firmware, halts, or enters the kernel with `g_boot_info`;
`running` is the loop still going round -/
inductive Outcome
  | returned (status : UInt64)
  | halted
  | running
  | entered (info : BootInfo) (calls : List Call)

/-- `update_boot_info(mem_map, map_size, desc_size, desc_ver)` -/
def reportMap (l : Loader σ) : Loader σ :=
  { l with info := updateBootInfo l.info l.memMap l.mapSize l.descSize l.descVer l.descriptorAt }

/-- The answer of `ExitBootServices` -/
def exitStatus (l : Loader σ) : UInt64 := (fw.exitBootServices l.mapKey l.firmware).1

/-- After the call of `ExitBootServices` -/
def askExit (l : Loader σ) : Loader σ :=
  { l with
    firmware := (fw.exitBootServices l.mapKey l.firmware).2
    calls := .exitBootServices l.mapKey (exitStatus fw l) :: l.calls }

/-- The loop around `ExitBootServices`, at most `attempts` times -/
def exitLoop : (attempts : Nat) → Loader σ → Outcome
  | 0, _ => .running
  | attempts + 1, l =>
    let exited := askExit fw l
    if !efiError (exitStatus fw l) then .entered exited.info exited.calls
    else
      let mapped := getMemoryMap fw exited
      if efiError mapped.1 then .halted
      else if exitStatus fw l ≠ efiInvalidParameter then .halted
      else exitLoop attempts (reportMap mapped.2)

/-- The assignments to `g_boot_info` after the first map -/
def describeImage (image : Image) (l : Loader σ) : Loader σ :=
  { l with
    info := { l.info with
      kernelImageBase := image.efiMain &&& ~~~4095
      kernelImageSize := 2 * 1024 * 1024
      bootstrapStackBase := image.kernelStackBase
      bootstrapStackSize := image.kernelStackSize } }

/-- The locals of `efi_main` before the first `get_memory_map` -/
def Loader.start (firmware : σ) (info : BootInfo) (gop : Gop) : Loader σ :=
  { firmware := firmware
    calls := []
    memMap := 0
    mapCapacity := 0
    mapSize := 0
    mapKey := 0
    descSize := 0
    descVer := 0
    descriptorAt := info.descriptorAt
    info := { info with fbBase := gop.frameBufferBase, fbSize := gop.frameBufferSize } }

/-- `efi_main`, from the answer of `LocateProtocol` on, with at most `attempts` attempts to exit the boot
services; `info` is `g_boot_info` as it is loaded -/
def efiMain (image : Image) (gopStatus : UInt64) (gop : Option Gop) (info : BootInfo) (firmware : σ)
    (attempts : Nat) : Outcome :=
  match gop with
  | none => .returned gopStatus
  | some gop =>
    if efiError gopStatus then .returned gopStatus
    else
      let mapped := getMemoryMap fw (Loader.start firmware info gop)
      if efiError mapped.1 then .returned mapped.1
      else exitLoop fw attempts (describeImage image (reportMap mapped.2))

/-! ## One iteration -/

/-- The buffer in use is allocated. -/
def Owned (l : Loader σ) : Prop := l.memMap ≠ 0 → l.memMap ∈ allocated l.calls

/-- The map of the last call, in a buffer that is allocated: what a successful `get_memory_map` leaves -/
structure Mapped (l : Loader σ) (r : MapResponse) (earlier : List Call) : Prop where
  calls : l.calls = .getMemoryMap l.memMap r :: earlier
  status : efiError r.status = false
  memMap : l.memMap ≠ 0
  owned : l.memMap ∈ allocated earlier
  mapKey : l.mapKey = r.mapKey
  mapSize : l.mapSize = r.memoryMapSize
  descSize : l.descSize = r.descriptorSize
  descSize_ne : l.descSize ≠ 0
  descVer : l.descVer = r.descriptorVersion
  descriptorAt : l.descriptorAt = r.descriptorAt

/-- Replacing the buffer leaves the new one allocated, even if it is the old one again. -/
theorem mem_allocated_freeMap {l : Loader σ} {buffer : UInt64} {old : List UInt64}
    (hnew : allocated l.calls = buffer :: old) (hold : l.memMap ≠ 0 → l.memMap ∈ old) :
    buffer ∈ allocated (freeMap fw l).calls := by
  unfold freeMap
  split
  · rw [hnew]
    exact List.mem_cons_self
  · rename_i hmap
    show buffer ∈ (allocated l.calls).erase l.memMap
    rw [hnew]
    by_cases hsame : buffer = l.memMap
    · rw [hsame, List.erase_cons_head]
      exact hold hmap
    · rw [List.erase_cons_tail]
      · exact List.mem_cons_self
      · simpa using hsame

/-- An iteration that goes on owns its new buffer. -/
theorem owned_of_getMemoryMapOnce {l l' : Loader σ} (hl : Owned l)
    (h : getMemoryMapOnce fw l = (none, l')) : Owned l' := by
  obtain ⟨capacity, -, hstatus, rfl⟩ := growMap_eq_none fw (getMemoryMapOnce_eq_none fw h)
  have hnew : allocated (askPool fw capacity (askMap fw l)).calls =
      (poolResponse fw capacity (askMap fw l)).buffer :: allocated l.calls :=
    if_neg (Bool.eq_false_iff.mp hstatus)
  intro _
  exact mem_allocated_freeMap fw hnew hl

theorem efiError_outOfResources : efiError efiOutOfResources = true := by decide

theorem efiError_invalidParameter : efiError efiInvalidParameter = true := by decide

/-- An error is not the status of a return without one. -/
theorem pair_ne_of_error {status error : UInt64} {d l' : Loader σ} (hok : efiError status = false)
    (herror : efiError error = true) : (some error, d) ≠ (some status, l') := by
  intro h
  have hsame : error = status := Option.some.inj (Prod.mk.inj h).1
  rw [hsame, hok] at herror
  exact Bool.false_ne_true herror

theorem growMap_ne_some {status : UInt64} {grown : Option UInt64} {l l' : Loader σ}
    (hok : efiError status = false) : growMap fw grown l ≠ (some status, l') := by
  intro h
  cases grown with
  | none => exact pair_ne_of_error hok efiError_outOfResources h
  | some capacity =>
    simp only [growMap] at h
    split at h
    · rename_i hstatus
      exact pair_ne_of_error hok hstatus h
    · simp only [Prod.mk.injEq, reduceCtorEq, false_and] at h

/-- An iteration that returns without an error has made one call, and its map is the one it got. -/
theorem mapped_of_getMemoryMapOnce {l l' : Loader σ} {status : UInt64} (hl : Owned l)
    (h : getMemoryMapOnce fw l = (some status, l')) (hok : efiError status = false) :
    Mapped l' (mapResponse fw l) l.calls := by
  simp only [getMemoryMapOnce, acceptMap] at h
  split at h
  · exact absurd h (growMap_ne_some fw hok)
  · split at h
    · rename_i hstatus
      exact absurd h (pair_ne_of_error hok hstatus)
    · rename_i hstatus
      split at h
      · exact absurd h (pair_ne_of_error hok efiError_invalidParameter)
      · rename_i hmap
        rw [not_or] at hmap
        obtain ⟨-, rfl⟩ := Prod.mk.inj h
        exact ⟨rfl, Bool.eq_false_iff.mpr hstatus, hmap.1, hl hmap.1, rfl, rfl, rfl, hmap.2, rfl, rfl⟩

/-! ## The loops -/

/-- **`get_memory_map`.** When it returns without an error, its last call is the `GetMemoryMap` whose map it
returns, in a buffer that is allocated. -/
theorem mapped_of_getMemoryMap (l : Loader σ) (hl : Owned l)
    (hok : efiError (getMemoryMap fw l).1 = false) :
    ∃ r earlier, Mapped (getMemoryMap fw l).2 r earlier := by
  -- on the buffer, which grows with every iteration
  induction hn : 2 ^ 64 - l.mapCapacity.toNat using Nat.strong_induction_on generalizing l with
  | _ n ih =>
    rw [getMemoryMap] at hok ⊢
    split at hok
    · rename_i status l' hreturn
      exact ⟨_, _, mapped_of_getMemoryMapOnce fw hl hreturn hok⟩
    · rename_i l' hagain
      have hgrows := getMemoryMapOnce_grows fw hagain
      have hlt := l'.mapCapacity.toNat_lt
      exact ih _ (by omega) l' (owned_of_getMemoryMapOnce fw hl hagain) hok rfl

/-- `g_boot_info` describes the map `r` in `buffer`. -/
structure Reported (info : BootInfo) (buffer : UInt64) (r : MapResponse) : Prop where
  memoryMap : info.memoryMap = buffer
  memoryMapSize : info.memoryMapSize = r.memoryMapSize
  descriptorSize : info.descriptorSize = r.descriptorSize
  descriptorVersion : info.descriptorVersion = r.descriptorVersion
  totals : (info.totalMemoryBytes, info.usableMemoryBytes) =
    ((List.range (r.memoryMapSize / r.descriptorSize).toNat).map r.descriptorAt).foldl sumRegion (0, 0)

/-- `update_boot_info` reports the map it is given. -/
theorem Mapped.reported {l : Loader σ} {r : MapResponse} {earlier : List Call}
    (h : Mapped l r earlier) : Reported (reportMap l).info l.memMap r := by
  have hmap : (l.info.withMap l.memMap l.mapSize l.descSize l.descVer l.descriptorAt).HasMap :=
    ⟨h.memMap, h.descSize_ne⟩
  have hdescriptors :
      (l.info.withMap l.memMap l.mapSize l.descSize l.descVer l.descriptorAt).descriptors =
        (List.range (r.memoryMapSize / r.descriptorSize).toNat).map r.descriptorAt := by
    rw [BootInfo.descriptors, if_pos hmap, ← h.mapSize, ← h.descSize, ← h.descriptorAt]
    rfl
  simp only [reportMap, updateBootInfo, if_pos hmap]
  refine ⟨rfl, h.mapSize, h.descSize, h.descVer, ?_⟩
  rw [← hdescriptors]

/-- Before an attempt to exit: the last call was a `GetMemoryMap`, and its map is the one reported. -/
def Ready (l : Loader σ) : Prop := ∃ r earlier, Mapped l r earlier ∧ Reported l.info l.memMap r

theorem Mapped.setInfo {l : Loader σ} {r : MapResponse} {earlier : List Call} (h : Mapped l r earlier)
    (info : BootInfo) : Mapped { l with info := info } r earlier :=
  ⟨h.calls, h.status, h.memMap, h.owned, h.mapKey, h.mapSize, h.descSize, h.descSize_ne, h.descVer,
    h.descriptorAt⟩

theorem Mapped.ready {l : Loader σ} {r : MapResponse} {earlier : List Call} (h : Mapped l r earlier) :
    Ready (reportMap l) :=
  ⟨r, earlier, h.setInfo _, h.reported⟩

/-- The other fields of `g_boot_info` are not about the map. -/
theorem Mapped.ready_describeImage {l : Loader σ} {r : MapResponse} {earlier : List Call}
    (h : Mapped l r earlier) (image : Image) : Ready (describeImage image (reportMap l)) := by
  have hr := h.reported
  exact ⟨r, earlier, h.setInfo _, hr.memoryMap, hr.memoryMapSize, hr.descriptorSize,
    hr.descriptorVersion, hr.totals⟩

/-- What the handoff promises: the last two calls are a `GetMemoryMap` and the exit with its key, and the
kernel gets the map of that call, in a buffer that is allocated. -/
def HandedOver (info : BootInfo) (calls : List Call) : Prop :=
  ∃ buffer r status earlier,
    calls = .exitBootServices r.mapKey status :: .getMemoryMap buffer r :: earlier ∧
      efiError status = false ∧ efiError r.status = false ∧ Reported info buffer r ∧
      buffer ∈ allocated calls

/-- After a failed attempt the buffer is still the loader's. -/
theorem Ready.owned {l : Loader σ} (h : Ready l) : Owned (askExit fw l) := by
  obtain ⟨r, earlier, hmapped, -⟩ := h
  intro _
  show l.memMap ∈ allocated l.calls
  rw [hmapped.calls]
  exact hmapped.owned

theorem handedOver_of_exitLoop {attempts : Nat} {l : Loader σ} {info : BootInfo} {calls : List Call}
    (hl : Ready l) (h : exitLoop fw attempts l = .entered info calls) : HandedOver info calls := by
  induction attempts generalizing l with
  | zero => exact Outcome.noConfusion h
  | succ attempts ih =>
    simp only [exitLoop] at h
    split at h
    · rename_i hstatus
      obtain ⟨rfl, rfl⟩ := Outcome.entered.inj h
      obtain ⟨r, earlier, hmapped, hreported⟩ := hl
      refine ⟨l.memMap, r, exitStatus fw l, earlier, ?_, ?_, hmapped.status, hreported, ?_⟩
      · show Call.exitBootServices l.mapKey _ :: l.calls = _
        rw [hmapped.mapKey, hmapped.calls]
      · exact Bool.eq_false_iff.mpr (by simpa using hstatus)
      · show l.memMap ∈ allocated l.calls
        rw [hmapped.calls]
        exact hmapped.owned
    · split at h
      · exact Outcome.noConfusion h
      · rename_i hok
        split at h
        · exact Outcome.noConfusion h
        · obtain ⟨r, earlier, hmapped⟩ :=
            mapped_of_getMemoryMap fw (askExit fw l) (hl.owned fw) (Bool.eq_false_iff.mpr hok)
          exact ih hmapped.ready h

/-- **The kernel is handed the map that was accepted.** For every firmware: if `efi_main` enters the
kernel, the `ExitBootServices` that succeeded used the key of the most recent `GetMemoryMap`, there was no
call between the two, and `g_boot_info` describes the map of that call, whose buffer is still allocated. -/
theorem efiMain_handsOver (image : Image) (gopStatus : UInt64) (gop : Option Gop) (info₀ : BootInfo)
    (firmware : σ) (attempts : Nat) (info : BootInfo) (calls : List Call)
    (h : efiMain fw image gopStatus gop info₀ firmware attempts = .entered info calls) :
    HandedOver info calls := by
  unfold efiMain at h
  split at h
  · exact Outcome.noConfusion h
  · rename_i gop
    split at h
    · exact Outcome.noConfusion h
    · dsimp only at h
      split at h
      · exact Outcome.noConfusion h
      · rename_i hok
        have hstart : Owned (Loader.start firmware info₀ gop) := fun hne => absurd rfl hne
        obtain ⟨r, earlier, hmapped⟩ :=
          mapped_of_getMemoryMap fw _ hstart (Bool.eq_false_iff.mpr hok)
        exact handedOver_of_exitLoop fw (hmapped.ready_describeImage image) h

/-- A firmware with a map of one descriptor of 48 bytes, which allocates at 0x8000 and lets the loader go at
once -/
def oneDescriptor : Firmware Unit where
  getMemoryMap size _ _ :=
    (⟨if size < 48 then efiBufferTooSmall else efiSuccess, 48, 7, 48, 1,
      fun _ => ⟨efiConventionalMemory, 0, 512⟩⟩, ())
  allocatePool _ _ := (⟨efiSuccess, 0x8000⟩, ())
  freePool _ _ := ()
  exitBootServices _ _ := (efiSuccess, ())

/-- `g_boot_info` before `efi_main` -/
def blankInfo : BootInfo where
  self := 0x6000
  fbBase := 0
  fbSize := 0
  totalMemoryBytes := 0
  usableMemoryBytes := 0
  memoryMapSize := 0
  descriptorSize := 0
  descriptorVersion := 0
  memoryMap := 0
  descriptorAt := fun _ => ⟨0, 0, 0⟩
  kernelImageBase := 0
  kernelImageSize := 0
  bootstrapStackBase := 0
  bootstrapStackSize := 0
  initrdBase := 0
  initrdSize := 0

theorem getMemoryMap_of_return {l l' : Loader σ} {status : UInt64}
    (h : getMemoryMapOnce fw l = (some status, l')) : getMemoryMap fw l = (status, l') := by
  rw [getMemoryMap]
  split
  · rename_i hreturn
    obtain ⟨hstatus, rfl⟩ := Prod.mk.inj (h.symm.trans hreturn)
    rw [Option.some.inj hstatus]
  · rename_i hagain
    exact absurd (Prod.mk.inj (h.symm.trans hagain)).1 (Option.some_ne_none _)

theorem getMemoryMap_of_again {l l' : Loader σ} (h : getMemoryMapOnce fw l = (none, l')) :
    getMemoryMap fw l = getMemoryMap fw l' := by
  rw [getMemoryMap]
  split
  · rename_i hreturn
    exact absurd (Prod.mk.inj (hreturn.symm.trans h)).1 (Option.some_ne_none _)
  · rename_i hagain
    rw [(Prod.mk.inj (hagain.symm.trans h)).2]

/-- The first map does not fit, the second is handed over. -/
theorem efiMain_handsOver_oneDescriptor :
    ∃ info calls,
      efiMain oneDescriptor ⟨0x100000, 0x200000, 16384⟩ efiSuccess (some ⟨0xC0000000, 0x300000⟩) blankInfo ()
        1 = .entered info calls ∧ HandedOver info calls ∧ calls.length = 4 := by
  generalize hstart : Loader.start () blankInfo ⟨0xC0000000, 0x300000⟩ = start
  have hagain : getMemoryMapOnce oneDescriptor start = (none, (getMemoryMapOnce oneDescriptor start).2) := by
    rw [← hstart]
    rfl
  generalize hgrown : (getMemoryMapOnce oneDescriptor start).2 = grown at hagain
  have hreturn : getMemoryMapOnce oneDescriptor grown =
      (some efiSuccess, (getMemoryMapOnce oneDescriptor grown).2) := by
    rw [← hgrown, ← hstart]
    rfl
  have hmain : ∃ info calls,
      efiMain oneDescriptor ⟨0x100000, 0x200000, 16384⟩ efiSuccess (some ⟨0xC0000000, 0x300000⟩) blankInfo ()
        1 = .entered info calls ∧ calls.length = 4 := by
    unfold efiMain
    dsimp only
    rw [hstart, getMemoryMap_of_again _ hagain, getMemoryMap_of_return _ hreturn, ← hgrown, ← hstart]
    exact ⟨_, _, rfl, rfl⟩
  obtain ⟨info, calls, hentered, hlength⟩ := hmain
  exact ⟨info, calls, hentered, efiMain_handsOver oneDescriptor _ _ _ _ _ _ _ _ hentered, hlength⟩

end MinOS.Boot
