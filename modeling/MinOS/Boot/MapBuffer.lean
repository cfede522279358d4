/-
# MinOS.Boot.MapBuffer — `get_memory_map` returns, and keeps at most one buffer.

The firmware of `MinOS.Handoff` answers as it likes. Here it is watched by a ledger of the pool, `Pool`: the buffers
that are allocated, with their sizes, and how many calls of `FreePool` named a buffer that was not. A buffer that is
freed once leaves the ledger, so that a second call for it would be counted.

What is asked of the firmware is what UEFI says of `AllocatePool`: a buffer that it hands out is not NULL and is not in
use. The rest is an invariant, `Tidy`: the ledger has the buffer in `*map`, of `*capacity` bytes, and no other. Every
iteration keeps it, and so do the error paths, which leave no buffer.
-/
import MinOS.Handoff

namespace MinOS.Boot

/-! ## The pool -/

/-- The buffers that are allocated, with their sizes, and the calls of `FreePool` for something else -/
structure Pool where
  live : List (UInt64 × UInt64)
  badFrees : Nat

/-- `AllocatePool` has handed out a buffer. -/
def Pool.allocate (buffer size : UInt64) (pool : Pool) : Pool := { pool with live := (buffer, size) :: pool.live }

/-- `FreePool` -/
def Pool.free (buffer : UInt64) (pool : Pool) : Pool :=
  if buffer ∈ pool.live.map Prod.fst then { pool with live := pool.live.filter fun b => b.1 ≠ buffer }
  else { pool with badFrees := pool.badFrees + 1 }

/-- Boot services that can see the ledger; a buffer they hand out is fresh -/
structure Services (σ : Type) where
  getMemoryMap : (memoryMapSize memoryMap : UInt64) → σ → Pool → MapResponse × σ
  allocatePool : (size : UInt64) → σ → Pool → PoolResponse × σ
  freePool : (buffer : UInt64) → σ → Pool → σ
  exitBootServices : (mapKey : UInt64) → σ → Pool → UInt64 × σ
  fresh : ∀ size s pool, efiError (allocatePool size s pool).1.status = false →
    (allocatePool size s pool).1.buffer ≠ 0 ∧ (allocatePool size s pool).1.buffer ∉ pool.live.map Prod.fst

variable {σ : Type}

/-- The services as the loader calls them, with the ledger kept -/
def Services.firmware (sv : Services σ) : Firmware (σ × Pool) where
  getMemoryMap size map st :=
    ((sv.getMemoryMap size map st.1 st.2).1, (sv.getMemoryMap size map st.1 st.2).2, st.2)
  allocatePool size st :=
    ((sv.allocatePool size st.1 st.2).1, (sv.allocatePool size st.1 st.2).2,
      if efiError (sv.allocatePool size st.1 st.2).1.status then st.2
      else st.2.allocate (sv.allocatePool size st.1 st.2).1.buffer size)
  freePool buffer st := (sv.freePool buffer st.1 st.2, st.2.free buffer)
  exitBootServices key st :=
    ((sv.exitBootServices key st.1 st.2).1, (sv.exitBootServices key st.1 st.2).2, st.2)

/-- The ledger -/
def Loader.pool (l : Loader (σ × Pool)) : Pool := l.firmware.2

/-- The buffer of the loader: none, or the one in `*map`, of `*capacity` bytes -/
def Loader.buffers (l : Loader (σ × Pool)) : List (UInt64 × UInt64) :=
  if l.memMap = 0 then [] else [(l.memMap, l.mapCapacity)]

/-- The ledger has the loader's buffer and no other, and no buffer was freed twice since there were `n` bad calls. -/
structure Tidy (n : Nat) (l : Loader (σ × Pool)) : Prop where
  live : l.pool.live = l.buffers
  capacity : l.memMap = 0 → l.mapCapacity = 0
  badFrees : l.pool.badFrees = n

/-! ## One iteration -/

section Iteration

variable (sv : Services σ) {n : Nat} {l l' : Loader (σ × Pool)}

theorem Tidy.askMap (h : Tidy n l) : Tidy n (askMap sv.firmware l) := ⟨h.live, h.capacity, h.badFrees⟩

theorem Pool.free_last {buffer size : UInt64} {others : List (UInt64 × UInt64)} {pool : Pool}
    (h : pool.live = others ++ [(buffer, size)]) (hothers : buffer ∉ others.map Prod.fst) :
    (pool.free buffer).live = others ∧ (pool.free buffer).badFrees = pool.badFrees := by
  have hmem : buffer ∈ pool.live.map Prod.fst := by simp [h]
  have hkept : (others.filter fun b => b.1 ≠ buffer) = others := by
    rw [List.filter_eq_self]
    intro b hb
    have hne : b.1 ≠ buffer := fun heq => hothers (List.mem_map.mpr ⟨b, hb, heq⟩)
    simpa using hne
  rw [Pool.free, if_pos hmem]
  refine ⟨?_, rfl⟩
  dsimp only
  rw [h, List.filter_append, hkept]
  simp

/-- `if (*map) FreePool(*map);`, beside other buffers -/
theorem pool_freeMap (others : List (UInt64 × UInt64)) (h : l.pool.live = others ++ l.buffers)
    (hothers : l.memMap ∉ others.map Prod.fst) : (freeMap sv.firmware l).pool.live = others ∧
      (freeMap sv.firmware l).pool.badFrees = l.pool.badFrees := by
  unfold freeMap
  unfold Loader.buffers at h
  by_cases hmap : l.memMap = 0
  · rw [if_pos hmap, List.append_nil] at h
    rw [if_pos hmap]
    exact ⟨h, rfl⟩
  · rw [if_neg hmap] at h
    rw [if_neg hmap]
    exact Pool.free_last h hothers

/-- **The error paths** leave no buffer. -/
theorem Tidy.dropMap (h : Tidy n l) : Tidy n (dropMap sv.firmware l) := by
  obtain ⟨hlive, hbad⟩ := pool_freeMap sv [] h.live (by simp)
  exact ⟨hlive, fun _ => rfl, hbad.trans h.badFrees⟩

theorem Tidy.askPool_error (h : Tidy n l) {size : UInt64}
    (herror : efiError (poolResponse sv.firmware size l).status = true) : Tidy n (askPool sv.firmware size l) := by
  have hpool : (askPool sv.firmware size l).pool = l.pool := if_pos herror
  exact ⟨by rw [hpool]; exact h.live, h.capacity, by rw [hpool]; exact h.badFrees⟩

/-- **A larger buffer** takes the place of the old one. -/
theorem Tidy.replaceMap (h : Tidy n l) {size : UInt64}
    (hok : efiError (poolResponse sv.firmware size l).status = false) :
    Tidy n (replaceMap sv.firmware (poolResponse sv.firmware size l).buffer size (askPool sv.firmware size l)) := by
  obtain ⟨hnull, hfresh⟩ := sv.fresh size l.firmware.1 l.firmware.2 hok
  have hpool : (askPool sv.firmware size l).pool =
      l.pool.allocate (poolResponse sv.firmware size l).buffer size := if_neg (Bool.eq_false_iff.mp hok)
  have hlive : (askPool sv.firmware size l).pool.live =
      [((poolResponse sv.firmware size l).buffer, size)] ++ (askPool sv.firmware size l).buffers := by
    rw [hpool, Pool.allocate, h.live]
    rfl
  have hother : (askPool sv.firmware size l).memMap ∉
      [((poolResponse sv.firmware size l).buffer, size)].map Prod.fst := by
    rw [List.map_cons, List.map_nil, List.mem_singleton]
    intro (hsame : l.memMap = (poolResponse sv.firmware size l).buffer)
    have hin : l.memMap ∈ l.pool.live.map Prod.fst := by
      rw [h.live, Loader.buffers, if_neg (hsame ▸ hnull)]
      simp
    exact hfresh (hsame ▸ hin)
  obtain ⟨hfreed, hbad⟩ := pool_freeMap sv _ hlive hother
  refine ⟨?_, fun hzero => absurd hzero hnull, ?_⟩
  · rw [Loader.buffers]
    refine Eq.trans ?_ (if_neg hnull).symm
    exact hfreed
  · refine hbad.trans ?_
    rw [hpool]
    exact h.badFrees

/-- What an iteration leaves, with the status it returns -/
inductive Left (n : Nat) : Option UInt64 × Loader (σ × Pool) → Prop
  | again {l : Loader (σ × Pool)} (h : Tidy n l) : Left n (none, l)
  | success {l : Loader (σ × Pool)} (h : Tidy n l) (hmap : l.memMap ≠ 0) : Left n (some efiSuccess, l)
  | error {l : Loader (σ × Pool)} {status : UInt64} (h : Tidy n l) (hmap : l.memMap = 0)
    (hstatus : efiError status = true) : Left n (some status, l)

theorem Tidy.left_growMap (h : Tidy n l) (grown : Option UInt64) : Left n (growMap sv.firmware grown l) := by
  cases grown with
  | none => exact .error (h.dropMap sv) rfl efiError_outOfResources
  | some capacity =>
    rw [growMap]
    split
    · rename_i hstatus
      exact .error ((h.askPool_error sv hstatus).dropMap sv) rfl hstatus
    · rename_i hstatus
      exact .again (h.replaceMap sv (Bool.eq_false_iff.mpr hstatus))

theorem Tidy.left_acceptMap (h : Tidy n l) (required : UInt64) : Left n (acceptMap sv.firmware required l) := by
  rw [acceptMap]
  split
  · exact .error (h.dropMap sv) rfl efiError_invalidParameter
  · rename_i hmap
    rw [not_or] at hmap
    exact .success ⟨h.live, h.capacity, h.badFrees⟩ hmap.1

/-- **One iteration**: each of its exits leaves the right buffer. -/
theorem Tidy.left_getMemoryMapOnce (h : Tidy n l) : Left n (getMemoryMapOnce sv.firmware l) := by
  have hasked := h.askMap sv
  rw [getMemoryMapOnce]
  split
  · exact hasked.left_growMap sv _
  · split
    · rename_i hstatus
      exact .error (hasked.dropMap sv) rfl hstatus
    · exact hasked.left_acceptMap sv _

end Iteration

/-! ## The loop -/

/-- `get_memory_map`, if it returns within so many iterations -/
def getMemoryMapWithin (fw : Firmware σ) : (iterations : Nat) → Loader σ → Option (UInt64 × Loader σ)
  | 0, _ => none
  | iterations + 1, l =>
    match getMemoryMapOnce fw l with
    | (some status, l') => some (status, l')
    | (none, l') => getMemoryMapWithin fw iterations l'

/-- **Termination**: a buffer cannot grow 2^64 times. -/
theorem exists_getMemoryMapWithin (fw : Firmware σ) (l : Loader σ) :
    ∃ iterations ≤ 2 ^ 64 - l.mapCapacity.toNat, getMemoryMapWithin fw iterations l = some (getMemoryMap fw l) := by
  -- on the buffer, which grows with every iteration
  induction hn : 2 ^ 64 - l.mapCapacity.toNat using Nat.strong_induction_on generalizing l with
  | _ n ih =>
    have hlt := l.mapCapacity.toNat_lt
    rcases honce : getMemoryMapOnce fw l with ⟨_ | status, l'⟩
    · have hgrows := getMemoryMapOnce_grows fw honce
      have hlt' := l'.mapCapacity.toNat_lt
      obtain ⟨iterations, hle, hrun⟩ := ih _ (by omega) l' rfl
      refine ⟨iterations + 1, by omega, ?_⟩
      rw [getMemoryMapWithin, honce, getMemoryMap_of_again fw honce]
      exact hrun
    · refine ⟨1, by omega, ?_⟩
      rw [getMemoryMapWithin, honce, getMemoryMap_of_return fw honce]

/-- The invariant over the whole loop -/
theorem Tidy.left_getMemoryMap (sv : Services σ) {n : Nat} {l : Loader (σ × Pool)} (h : Tidy n l) :
    Left n (some (getMemoryMap sv.firmware l).1, (getMemoryMap sv.firmware l).2) := by
  induction hn : 2 ^ 64 - l.mapCapacity.toNat using Nat.strong_induction_on generalizing l with
  | _ m ih =>
    have hleft := h.left_getMemoryMapOnce sv
    rcases honce : getMemoryMapOnce sv.firmware l with ⟨_ | status, l'⟩
    · have hgrows := getMemoryMapOnce_grows sv.firmware honce
      have hlt' := l'.mapCapacity.toNat_lt
      rw [honce] at hleft
      cases hleft with
      | again htidy =>
        rw [getMemoryMap_of_again _ honce]
        exact ih _ (by omega) htidy rfl
    · rw [honce] at hleft
      rw [getMemoryMap_of_return _ honce]
      exact hleft

/-! ## Sizes -/

/-- `base` -/
def growthBase (required capacity : UInt64) : UInt64 := if required > capacity then required else capacity

/-- `increment` -/
def growthIncrement (base : UInt64) : UInt64 := if base / 2 = 0 then 1 else base / 2

/-- The sizes that an iteration computes are those of exact arithmetic. -/
structure NoWrap (required capacity : UInt64) : Prop where
  guard : (uint64Max - growthIncrement (growthBase required capacity) - 1).toNat +
    (growthIncrement (growthBase required capacity)).toNat + 1 = 2 ^ 64 - 1
  grown : ∀ grown, grownCapacity required capacity = some grown →
    grown.toNat = (growthBase required capacity).toNat + (growthIncrement (growthBase required capacity)).toNat + 1

theorem growthIncrement_le (base : UInt64) : (growthIncrement base).toNat ≤ 2 ^ 63 := by
  have hlt := base.toNat_lt
  unfold growthIncrement
  split
  · decide
  · rw [UInt64.toNat_div, show (2 : UInt64).toNat = 2 from rfl]
    omega

theorem noWrap (required capacity : UInt64) : NoWrap required capacity := by
  have hone : (1 : UInt64).toNat = 1 := rfl
  have hmax : uint64Max.toNat = 2 ^ 64 - 1 := rfl
  have hle := growthIncrement_le (growthBase required capacity)
  have hguard : (uint64Max - growthIncrement (growthBase required capacity) - 1).toNat =
      2 ^ 64 - 2 - (growthIncrement (growthBase required capacity)).toNat := by
    rw [UInt64.toNat_sub, UInt64.toNat_sub, hmax, hone]
    omega
  refine ⟨by omega, fun grown hgrown => ?_⟩
  have hif : (if growthBase required capacity > uint64Max - growthIncrement (growthBase required capacity) - 1 then
        none
      else some (growthBase required capacity + growthIncrement (growthBase required capacity) + 1)) = some grown :=
    hgrown
  obtain ⟨hfits, hsum⟩ := Option.ite_none_left_eq_some.mp hif
  rw [gt_iff_lt, UInt64.lt_iff_toNat_lt, hguard] at hfits
  rw [← Option.some.inj hsum, UInt64.toNat_add, UInt64.toNat_add, hone]
  omega

/-! ## Nothing is leaked -/

/-- What `get_memory_map` leaves when it starts from `l` and returns `status` with `l'` -/
structure LeaksNothing (l : Loader (σ × Pool)) (status : UInt64) (l' : Loader (σ × Pool)) : Prop where
  success : status = efiSuccess → l'.memMap ≠ 0 ∧ l'.pool.live = [(l'.memMap, l'.mapCapacity)]
  error : status ≠ efiSuccess → l'.pool.live = [] ∧ l'.memMap = 0 ∧ l'.mapCapacity = 0
  badFrees : l'.pool.badFrees = l.pool.badFrees

theorem Left.leaksNothing {l l' : Loader (σ × Pool)} {status : UInt64} (h : Left l.pool.badFrees (some status, l')) :
    LeaksNothing l status l' := by
  cases h with
  | success htidy hmap =>
    refine ⟨fun _ => ⟨hmap, ?_⟩, fun hne => absurd rfl hne, htidy.badFrees⟩
    rw [htidy.live, Loader.buffers, if_neg hmap]
  | error htidy hmap hstatus =>
    have hne : status ≠ efiSuccess := by
      intro heq
      rw [heq] at hstatus
      exact absurd hstatus (by decide)
    refine ⟨fun heq => absurd heq hne, fun _ => ⟨?_, hmap, htidy.capacity hmap⟩, htidy.badFrees⟩
    rw [htidy.live, Loader.buffers, if_pos hmap]

/-- **Acquiring the memory map terminates and leaks nothing**, whatever the firmware answers: started without a buffer
or with one that is live, `get_memory_map` returns; no size wraps; on success the one buffer that is live is `*map`, of
`*capacity` bytes; on an error there is none; and every buffer that is freed was live. -/
theorem getMemoryMap_leaksNothing (sv : Services σ) (l : Loader (σ × Pool))
    (hl : (l.memMap = 0 ∧ l.mapCapacity = 0 ∧ l.pool.live = []) ∨
      (l.memMap ≠ 0 ∧ l.pool.live = [(l.memMap, l.mapCapacity)])) :
    (∃ iterations, getMemoryMapWithin sv.firmware iterations l = some (getMemoryMap sv.firmware l)) ∧
      (∀ required capacity, NoWrap required capacity) ∧
      LeaksNothing l (getMemoryMap sv.firmware l).1 (getMemoryMap sv.firmware l).2 := by
  have htidy : Tidy l.pool.badFrees l := by
    rcases hl with ⟨hmap, hcapacity, hlive⟩ | ⟨hmap, hlive⟩
    · exact ⟨by rw [hlive, Loader.buffers, if_pos hmap], fun _ => hcapacity, rfl⟩
    · exact ⟨by rw [hlive, Loader.buffers, if_neg hmap], fun hzero => absurd hzero hmap, rfl⟩
  obtain ⟨iterations, -, hrun⟩ := exists_getMemoryMapWithin sv.firmware l
  exact ⟨⟨iterations, hrun⟩, noWrap, (htidy.left_getMemoryMap sv).leaksNothing⟩

/-- The firmware of `oneDescriptor`, with two places for buffers -/
def twoPlaces : Services Unit where
  getMemoryMap size map _ _ := oneDescriptor.getMemoryMap size map ()
  allocatePool _ _ pool :=
    if 0x8000 ∉ pool.live.map Prod.fst then (⟨efiSuccess, 0x8000⟩, ())
    else if 0x9000 ∉ pool.live.map Prod.fst then (⟨efiSuccess, 0x9000⟩, ())
    else (⟨efiOutOfResources, 0⟩, ())
  freePool _ _ _ := ()
  exitBootServices key _ _ := oneDescriptor.exitBootServices key ()
  fresh size s pool hok := by
    split at hok
    · rename_i hfree
      rw [if_pos hfree]
      exact ⟨by decide, hfree⟩
    · rename_i hused
      split at hok
      · rename_i hfree
        rw [if_neg hused, if_pos hfree]
        exact ⟨by decide, hfree⟩
      · exact absurd hok (by decide)

/-- The first call of `efi_main` -/
theorem getMemoryMap_leaksNothing_start :
    LeaksNothing (Loader.start ((), ⟨[], 0⟩) blankInfo ⟨0xC0000000, 0x300000⟩)
      (getMemoryMap twoPlaces.firmware (Loader.start ((), ⟨[], 0⟩) blankInfo ⟨0xC0000000, 0x300000⟩)).1
      (getMemoryMap twoPlaces.firmware (Loader.start ((), ⟨[], 0⟩) blankInfo ⟨0xC0000000, 0x300000⟩)).2 :=
  (getMemoryMap_leaksNothing twoPlaces _ (Or.inl ⟨rfl, rfl, rfl⟩)).2.2

end MinOS.Boot
