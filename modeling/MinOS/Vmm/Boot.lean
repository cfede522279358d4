/-
# MinOS.Vmm.Boot — the maps `vmm_init` builds.

`no_maps_built`: whatever the boot info, the frame allocator and the contents of memory, when `vmm_init`
loads CR3 address 0 is not mapped, so it never builds the identity map. `walk_pml4` takes an empty
entry for a table at physical address 0 (it adds the direct-map base before it tests for NULL), so no
page directory is ever linked into the PDPT and the large-page entries go to the first two frames.

First fit gives the PML4 a lower frame than the PDPT. As long as the stores miss the PML4 its first
entry leads to a PDPT without present entries (`Linked`). They hit it exactly when the PML4 is frame 1 and
more than 256 pages are mapped: from then on its first entry is a large-page entry, whose page-size bit
is reserved there (`Clobbered`). The loop keeps one of the two, for memory with any contents: every
later store that could reach that entry is again a large-page entry.
-/
import MinOS.Pmm.Accounting
import MinOS.Vmm.Walk

namespace MinOS.Vmm

open MinOS.Boot
open MinOS.Pmm (Fault pmmAllocFrame pmmAllocFrame_cases frameAddress toNat_frameAddress
  frameAddress_ne_zero pmmMaxFrames pmmMaxFrames_eq)
open Machine (forRange forRange_carries forRange_runs bind_eq_ok_iff ok_bind)

/-! ## Large-page entries -/

theorem toNat_hugeEntry {w : UInt64} (h : w.toNat % 4096 = 0) :
    (hugeEntry w).toNat = w.toNat + 131 := by
  have hflags : PRESENT ||| (WRITE ||| HUGE) = 131 := by decide
  rw [hugeEntry, UInt64.or_assoc, UInt64.or_assoc, hflags,
    Word.toNat_or_low (k := 12) w 131 (Nat.dvd_of_mod_eq_zero h) (by decide)]
  rfl

theorem mask_hugeEntry {w : UInt64} (h : w.toNat % 4096 = 0) : hugeEntry w &&& ~~~0xFFF = w :=
  mask_of_toNat h (by decide) (toNat_hugeEntry h)

/-! ## The addresses the mapping loop visits -/

/-- `i * MINOS_VMM_BOOTSTRAP_PAGE_SIZE` -/
def pageAddress (i : Nat) : UInt64 := UInt64.ofNat i * bootstrapPageSize

theorem toNat_pageAddress {i : Nat} (hi : i < 2 ^ 15) : (pageAddress i).toNat = i * 2 ^ 21 := by
  have hsize : bootstrapPageSize.toNat = 2 ^ 21 := by decide
  rw [pageAddress, UInt64.toNat_mul, UInt64.toNat_ofNat', hsize]
  omega

theorem toNat_hhdm_add {v : UInt64} (h : v.toNat < 2 ^ 36) :
    (hhdmBase + v).toNat = 18446603336221196288 + v.toNat := by
  rw [UInt64.toNat_add, toNat_hhdmBase]
  omega

/-- `a` is page `i` of the identity or of the higher-half window. -/
structure Visits (i : Nat) (a : UInt64) : Prop where
  bound : i < 2 ^ 15
  pml4 : pml4Idx a = 0 ∨ pml4Idx a = 256
  pdpt : (pdptIdx a).toNat = i / 512
  pd : (pdIdx a).toNat = i % 512

theorem visits_low {i : Nat} (hi : i < 2 ^ 15) : Visits i (pageAddress i) := by
  have hv := toNat_pageAddress hi
  refine ⟨hi, Or.inl ?_, ?_, ?_⟩
  · apply UInt64.toNat_inj.mp
    rw [toNat_pml4Idx, hv, UInt64.toNat_zero]
    omega
  · rw [toNat_pdptIdx, hv]
    omega
  · rw [toNat_pdIdx, hv]
    omega

theorem visits_high {i : Nat} (hi : i < 2 ^ 15) : Visits i (hhdmBase + pageAddress i) := by
  have hv := toNat_pageAddress hi
  have hh := toNat_hhdm_add (v := pageAddress i) (by omega)
  refine ⟨hi, Or.inr ?_, ?_, ?_⟩
  · apply UInt64.toNat_inj.mp
    have h256 : (256 : UInt64).toNat = 256 := rfl
    rw [toNat_pml4Idx, hh, hv, h256]
    omega
  · rw [toNat_pdptIdx, hh, hv]
    omega
  · rw [toNat_pdIdx, hh, hv]
    omega

/-! ## Repeated stores -/

variable {s s' : State}

theorem store_store (s : State) (ptr value : UInt64) :
    (s.store ptr value).store ptr value = s.store ptr value := by
  simp only [State.store, Function.update_idem]

theorem iterate_store (s : State) (ptr value : UInt64) (n : Nat) :
    (fun t : State => t.store ptr value)^[n + 1] s = s.store ptr value := by
  induction n with
  | zero => rfl
  | succ n ih => rw [Function.iterate_succ_apply', ih, store_store]

/-- A mapping is a walk, and a store through what it returns. -/
theorem mapAt_cases {a value : UInt64} {n : Nat} {r : Bool} (h : mapAt a value (n + 1) s = .ok (r, s')) :
    ∃ pd t, walkPml4 s.kernelPml4 a true s = .ok (pd, t) ∧
      (s' = t ∨ s' = t.store (pd + 8 * pdIdx a) value) := by
  obtain ⟨⟨pd, t⟩, hwalk, hrest⟩ := bind_eq_ok_iff.mp h
  refine ⟨pd, t, hwalk, ?_⟩
  change (if pd = 0 then _ else _) = _ at hrest
  split at hrest
  · exact Or.inl (congrArg Prod.snd (Except.ok.inj hrest)).symm
  · rw [iterate_store] at hrest
    exact Or.inr (congrArg Prod.snd (Except.ok.inj hrest)).symm

/-- A step of the loop maps page `i` in the low window, and then in the high one unless that failed. -/
theorem mapBootstrapPage_cases {i : Nat} (h : mapBootstrapPage i s = .ok s') :
    ∃ mapped t, mapAt (pageAddress i) (hugeEntry (pageAddress i)) (1 + 1) s = .ok (mapped, t) ∧
      (mapped = false ∧ s' = t ∨ mapped = true ∧
        ∃ r, mapAt (hhdmBase + pageAddress i) (hugeEntry (pageAddress i)) (0 + 1) t = .ok (r, s')) := by
  obtain ⟨⟨mapped, t⟩, hfirst, hrest⟩ := bind_eq_ok_iff.mp h
  refine ⟨mapped, t, hfirst, ?_⟩
  cases mapped with
  | false => exact Or.inl ⟨rfl, (Except.ok.inj hrest).symm⟩
  | true =>
    obtain ⟨⟨r, u⟩, hsecond, hlast⟩ := bind_eq_ok_iff.mp hrest
    have hu : u = s' := Except.ok.inj hlast
    exact Or.inr ⟨rfl, r, hu ▸ hsecond⟩

/-! ## The PML4 still leads to an empty PDPT -/

/-- The PML4 is frame `k`, its two entries lead to the PDPT in frame `p`, and nothing is present in the
part of the PDPT that the first 64 GiB use. -/
structure Linked (k p : Nat) (s : State) : Prop where
  root : s.kernelPml4 = frameAddress k + hhdmBase
  entries : ∀ g : UInt64, g = 0 ∨ g = 256 →
    s.mem (frameAddress k + 8 * g) = tableEntry (frameAddress p)
  empty : ∀ j : UInt64, j.toNat < 64 → s.mem (frameAddress p + 8 * j) = 0

theorem Linked.withPages {k p : Nat} (h : Linked k p s) (n : UInt64) :
    Linked k p { s with mapped2mbPages := n } := ⟨h.root, h.entries, h.empty⟩

/-- The word the loop stores to while nothing is present in the PDPT: `16 * pd_idx` bytes into
physical memory -/
def strayWord (a : UInt64) : UInt64 := 8 * pdIdx a + 8 * pdIdx a

theorem Visits.toNat_strayWord {i : Nat} {a : UInt64} (h : Visits i a) :
    (strayWord a).toNat = 16 * (i % 512) := by
  have h8 : (8 : UInt64).toNat = 8 := rfl
  rw [strayWord, UInt64.toNat_add, UInt64.toNat_mul, h8, h.pd]
  omega

section Frames

variable {k p : Nat}

/-- While the PDPT is empty, the walk returns an entry of a table at physical address 0. -/
theorem Linked.walk {i : Nat} {a : UInt64} (h : Linked k p s) (hp : p < pmmMaxFrames)
    (ha : Visits i a) :
    walkPml4 s.kernelPml4 a true s = .ok (0 + hhdmBase + 8 * pdIdx a, s) := by
  have hmod := frameAddress_mod hp
  have hlow : (frameAddress p).toNat < 2 ^ 47 := by
    rw [toNat_frameAddress hp]
    rw [pmmMaxFrames_eq] at hp
    omega
  -- Both steps follow: the first to the PDPT, the second to physical address 0.
  have hfirst := nextTable_followed true (h.entries _ ha.pml4)
    (by rw [mask_tableEntry hmod]; exact hlow)
  have hbound := ha.bound
  have hsecond := nextTable_followed true
    (h.empty (pdptIdx a) (by rw [ha.pdpt]; omega)) (by decide)
  have hzero : (0 : UInt64) &&& ~~~0xFFF = 0 := by decide
  rw [mask_tableEntry hmod] at hfirst
  rw [hzero] at hsecond
  rw [walkPml4, h.root, hfirst, ok_bind]
  show (if frameAddress p + hhdmBase = 0 then _ else _) = _
  rw [if_neg (add_hhdm_ne_zero hlow), hsecond, ok_bind]
  rfl

theorem Linked.mapAt_eq {i n : Nat} {a value : UInt64} (h : Linked k p s) (hp : p < pmmMaxFrames)
    (ha : Visits i a) :
    mapAt a value (n + 1) s = .ok (true, s.store (strayWord a + hhdmBase) value) := by
  have hpd := ha.pd
  have hne : 0 + hhdmBase + 8 * pdIdx a ≠ 0 := by
    intro h0
    have hnat := congrArg UInt64.toNat h0
    have h8 : (8 : UInt64).toNat = 8 := rfl
    rw [UInt64.toNat_add, UInt64.toNat_mul, UInt64.zero_add, toNat_hhdmBase, h8, hpd,
      UInt64.toNat_zero] at hnat
    omega
  have hptr : 0 + hhdmBase + 8 * pdIdx a + 8 * pdIdx a = strayWord a + hhdmBase := by
    rw [strayWord]
    grind
  rw [mapAt, h.walk hp ha, ok_bind]
  show (if 0 + hhdmBase + 8 * pdIdx a = 0 then _ else _) = _
  rw [if_neg hne, iterate_store, hptr]

/-- A stray store that misses the PML4 keeps the tables as they are. -/
theorem Linked.stray {i : Nat} {a value : UInt64} (h : Linked k p s) (hk : 1 ≤ k) (hkp : k < p)
    (hp : p < pmmMaxFrames) (ha : Visits i a) (hmiss : k ≠ 1 ∨ i % 512 < 256) :
    Linked k p (s.store (strayWord a + hhdmBase) value) := by
  have hword := ha.toNat_strayWord
  have hmod : i % 512 < 512 := Nat.mod_lt _ (by decide)
  refine ⟨h.root, fun g hg => ?_, fun j hj => ?_⟩
  · rw [← h.entries g hg]
    apply store_mem_of_ne
    intro heq
    have hnat := congrArg UInt64.toNat heq
    have hg512 : g.toNat < 512 := by
      rcases hg with rfl | rfl <;> decide
    rw [hhdm_cancel, hword, toNat_entryAddress (by omega) rfl hg512] at hnat
    omega
  · rw [← h.empty j hj]
    apply store_mem_of_ne
    intro heq
    have hnat := congrArg UInt64.toNat heq
    rw [hhdm_cancel, hword, toNat_entryAddress hp rfl (by omega)] at hnat
    omega

/-! ## The PML4 has been overwritten -/

/-- A word that the mapping loop stores: a large-page entry for a page below 64 GiB -/
def IsHuge (e : UInt64) : Prop :=
  ∃ w : UInt64, w.toNat % 2 ^ 21 = 0 ∧ w.toNat < 2 ^ 36 ∧ e = hugeEntry w

theorem isHuge_pageAddress {i : Nat} (hi : i < 2 ^ 15) : IsHuge (hugeEntry (pageAddress i)) := by
  have hv := toNat_pageAddress hi
  exact ⟨pageAddress i, by omega, by omega, rfl⟩

/-- The PML4 is frame 1 and its first entry is a large-page entry; the other one is too, or still
leads to the PDPT in frame `p`. -/
structure Clobbered (p : Nat) (s : State) : Prop where
  root : s.kernelPml4 = frameAddress 1 + hhdmBase
  low : IsHuge (s.mem (frameAddress 1 + 8 * 0))
  high : IsHuge (s.mem (frameAddress 1 + 8 * 256)) ∨
    s.mem (frameAddress 1 + 8 * 256) = tableEntry (frameAddress p)

/-- Large-page entries may go anywhere. -/
theorem Clobbered.store_huge {ptr value : UInt64} (h : Clobbered p s) (hv : IsHuge value) :
    Clobbered p (s.store ptr value) := by
  refine ⟨h.root, ?_, ?_⟩
  · by_cases hhit : ptr - hhdmBase = frameAddress 1 + 8 * 0
    · rwa [store_mem_self hhit]
    · rw [store_mem_of_ne (Ne.symm hhit)]
      exact h.low
  · by_cases hhit : ptr - hhdmBase = frameAddress 1 + 8 * 256
    · rw [store_mem_self hhit]
      exact Or.inl hv
    · rw [store_mem_of_ne (Ne.symm hhit)]
      exact h.high

theorem Clobbered.withPmm (h : Clobbered p s) (q : Pmm.State) : Clobbered p { s with pmm := q } :=
  ⟨h.root, h.low, h.high⟩

/-- Where a clobbered PML4 leads: the PDPT, or some page below 64 GiB -/
def SafeBase (p : Nat) (b : UInt64) : Prop :=
  b = frameAddress p ∨ b.toNat % 2 ^ 21 = 0 ∧ b.toNat < 2 ^ 36

/-- Linking a table below such an address does not touch the PML4. -/
theorem Clobbered.store_linked {b j value : UInt64} (h : Clobbered p s) (hp : 2 ≤ p)
    (hmax : p < pmmMaxFrames) (hb : SafeBase p b) (hj : j.toNat < 64) :
    Clobbered p (s.store (b + hhdmBase + 8 * j) value) := by
  have h8 : (8 : UInt64).toNat = 8 := rfl
  -- `b` is not page 1 (it is frame `p`, or a multiple of 2 MiB), nor are the 64 entries from it on.
  have hmiss : ∀ n, n < 4096 → (b + 8 * j).toNat ≠ 4096 + n := by
    intro n hn heq
    rw [UInt64.toNat_add, UInt64.toNat_mul, h8] at heq
    rcases hb with rfl | ⟨hmod, hlt⟩
    · rw [toNat_frameAddress hmax] at heq
      rw [pmmMaxFrames_eq] at hmax
      omega
    · omega
  refine ⟨h.root, ?_, ?_⟩
  · rw [store_mem_of_ne]
    · exact h.low
    · rw [hhdm_cancel_index]
      intro heq
      exact hmiss 0 (by decide) (by rw [← heq]; decide)
  · rw [store_mem_of_ne]
    · exact h.high
    · rw [hhdm_cancel_index]
      intro heq
      exact hmiss 2048 (by decide) (by rw [← heq]; decide)

theorem IsHuge.safeBase {e : UInt64} (h : IsHuge e) : SafeBase p (e &&& ~~~0xFFF) := by
  obtain ⟨w, hmod, hlt, rfl⟩ := h
  rw [mask_hugeEntry (by omega)]
  exact Or.inr ⟨hmod, hlt⟩

theorem Clobbered.safeBase {g : UInt64} (h : Clobbered p s) (hmax : p < pmmMaxFrames)
    (hg : g = 0 ∨ g = 256) : SafeBase p (s.mem (frameAddress 1 + 8 * g) &&& ~~~0xFFF) := by
  rcases hg with rfl | rfl
  · exact h.low.safeBase
  · rcases h.high with hhuge | htable
    · exact hhuge.safeBase
    · rw [htable, mask_tableEntry (frameAddress_mod hmax)]
      exact Or.inl rfl

theorem SafeBase.lt {b : UInt64} (h : SafeBase p b) (hmax : p < pmmMaxFrames) :
    b.toNat < 2 ^ 47 := by
  rcases h with rfl | ⟨-, hlt⟩
  · rw [toNat_frameAddress hmax]
    rw [pmmMaxFrames_eq] at hmax
    omega
  · omega

/-- Whatever a clobbered walk finds in memory, the PML4 stays clobbered. -/
theorem Clobbered.mapAt {i n : Nat} {a value : UInt64} {r : Bool} (h : Clobbered p s) (hp : 2 ≤ p)
    (hmax : p < pmmMaxFrames) (ha : Visits i a) (hv : IsHuge value)
    (hmap : mapAt a value (n + 1) s = .ok (r, s')) : Clobbered p s' := by
  have hbase := h.safeBase hmax ha.pml4
  have hpdpt : (pdptIdx a).toNat < 64 := by
    have hbound := ha.bound
    rw [ha.pdpt]
    omega
  obtain ⟨pd, t, hwalk, hs'⟩ := mapAt_cases hmap
  have hwalked : Clobbered p t := by
    rw [walkPml4, h.root, nextTable_followed true rfl (hbase.lt hmax), ok_bind] at hwalk
    change (if _ = 0 then _ else _) = _ at hwalk
    rw [if_neg (add_hhdm_ne_zero (hbase.lt hmax))] at hwalk
    obtain ⟨⟨pdTable, u⟩, hnext, hlast⟩ := bind_eq_ok_iff.mp hwalk
    have hu : Clobbered p u := by
      rcases nextTable_cases hnext with ⟨q, rfl⟩ | ⟨q, linked, rfl⟩
      · exact h.withPmm q
      · exact (h.withPmm q).store_linked hp hmax hbase hpdpt
    change (if pdTable = 0 then _ else _) = _ at hlast
    split at hlast
    · cases hlast
      exact hu
    · have ht : u = t := congrArg Prod.snd (Except.ok.inj hlast)
      exact ht ▸ hu
  rcases hs' with rfl | rfl
  · exact hwalked
  · exact hwalked.store_huge hv

/-! ## The mapping loop -/

/-- One of the two, before page `i`; a PML4 in frame 1 is intact up to page 256 only. -/
def LinkedOrClobbered (k p i : Nat) (s : State) : Prop :=
  Linked k p s ∧ (k = 1 → i ≤ 256) ∨ k = 1 ∧ Clobbered p s

/-- Page 256 hits the first entry of a PML4 in frame 1. -/
theorem Linked.hit {a value : UInt64} (h : Linked 1 p s) (ha : Visits 256 a) (hv : IsHuge value) :
    Clobbered p (s.store (strayWord a + hhdmBase) value) := by
  have hword : strayWord a = frameAddress 1 + 8 * 0 := by
    apply UInt64.toNat_inj.mp
    rw [ha.toNat_strayWord]
    decide
  refine ⟨h.root, ?_, Or.inr ?_⟩
  · rw [store_mem_self (by rw [hhdm_cancel, hword])]
    exact hv
  · rw [store_mem_of_ne]
    · exact h.entries 256 (Or.inr rfl)
    · rw [hhdm_cancel, hword]
      decide

/-- A page whose stray stores miss the PML4 leaves the tables and the allocator as they are. -/
theorem Linked.mapBootstrapPage {i : Nat} (h : Linked k p s) (hk : 1 ≤ k) (hkp : k < p)
    (hp : p < pmmMaxFrames) (hi : i < 2 ^ 15) (hmiss : k ≠ 1 ∨ i % 512 < 256)
    (hpage : mapBootstrapPage i s = .ok s') : Linked k p s' ∧ s'.pmm = s.pmm := by
  have hlow := visits_low hi
  have hhigh := visits_high hi
  have ht : Linked k p
      (s.store (strayWord (pageAddress i) + hhdmBase) (hugeEntry (pageAddress i))) :=
    h.stray hk hkp hp hlow hmiss
  obtain ⟨mapped, t, hfirst, hcases⟩ := mapBootstrapPage_cases hpage
  rw [h.mapAt_eq hp hlow] at hfirst
  cases hfirst
  rcases hcases with ⟨hmapped, -⟩ | ⟨-, r, hsecond⟩
  · cases hmapped
  · rw [ht.mapAt_eq hp hhigh] at hsecond
    cases hsecond
    exact ⟨ht.stray hk hkp hp hhigh hmiss, rfl⟩

theorem mapBootstrapPage_keeps {i : Nat} (hk : 1 ≤ k) (hkp : k < p) (hp : p < pmmMaxFrames)
    (hi : i < 2 ^ 15) (h : LinkedOrClobbered k p i s) (hpage : mapBootstrapPage i s = .ok s') :
    LinkedOrClobbered k p (i + 1) s' := by
  have hlow := visits_low hi
  have hhigh := visits_high hi
  have hv := isHuge_pageAddress hi
  -- The tables are intact, about to be hit, or hit already.
  rcases h with ⟨hlinked, hbound⟩ | ⟨rfl, hclob⟩
  · by_cases hmiss : k ≠ 1 ∨ i % 512 < 256
    · obtain ⟨hlinked', -⟩ := hlinked.mapBootstrapPage hk hkp hp hi hmiss hpage
      refine Or.inl ⟨hlinked', ?_⟩
      intro hk1
      have := hbound hk1
      omega
    · -- Frame 1 and page 256: the first store replaces the PML4's first entry.
      obtain ⟨hk1, hge⟩ := not_or.mp hmiss
      obtain rfl : k = 1 := not_not.mp hk1
      have := hbound rfl
      obtain rfl : i = 256 := by omega
      obtain ⟨mapped, t, hfirst, hcases⟩ := mapBootstrapPage_cases hpage
      rw [hlinked.mapAt_eq hp hlow] at hfirst
      cases hfirst
      rcases hcases with ⟨hmapped, -⟩ | ⟨-, r, hsecond⟩
      · cases hmapped
      · exact Or.inr ⟨rfl, (hlinked.hit hlow hv).mapAt hkp hp hhigh hv hsecond⟩
  · obtain ⟨mapped, t, hfirst, hcases⟩ := mapBootstrapPage_cases hpage
    have ht := hclob.mapAt hkp hp hlow hv hfirst
    rcases hcases with ⟨-, rfl⟩ | ⟨-, r, hsecond⟩
    · exact Or.inr ⟨rfl, ht⟩
    · exact Or.inr ⟨rfl, ht.mapAt hkp hp hhigh hv hsecond⟩

end Frames

/-! ## The tables before the loop -/

/-- Clearing a table changes memory only. -/
theorem clearEntries_frame (table : UInt64) :
    ∀ (count i : Nat) (s : State), ∃ m, clearEntries table count i s = { s with mem := m } := by
  intro count
  induction count with
  | zero => intro i s; exact ⟨s.mem, rfl⟩
  | succ count ih =>
    intro i s
    obtain ⟨m, hm⟩ := ih (i + 1) (s.store (table + 8 * UInt64.ofNat i) 0)
    exact ⟨m, hm⟩

theorem clearEntries_other {b a : UInt64} :
    ∀ (count i : Nat) (s : State), (∀ j, i ≤ j → j < i + count → a ≠ b + 8 * UInt64.ofNat j) →
      (clearEntries (b + hhdmBase) count i s).mem a = s.mem a := by
  intro count
  induction count with
  | zero => intro i s _; rfl
  | succ count ih =>
    intro i s hne
    rw [clearEntries, ih (i + 1) _ (fun j hj hlt => hne j (by omega) (by omega))]
    apply store_mem_of_ne
    rw [hhdm_cancel_index]
    exact hne i (le_refl i) (by omega)

theorem clearEntries_zero {b : UInt64} :
    ∀ (count i : Nat) (s : State) (j : Nat), i ≤ j → j < i + count →
      (clearEntries (b + hhdmBase) count i s).mem (b + 8 * UInt64.ofNat j) = 0 := by
  intro count
  induction count with
  | zero => intro i s j hj hlt; omega
  | succ count ih =>
    intro i s j hj hlt
    -- Addresses may wrap, so two entries could be the same word.
    rw [clearEntries]
    rcases Nat.eq_or_lt_of_le hj with rfl | hj
    · -- The entry just cleared: later stores either clear it again or go elsewhere.
      by_cases hagain : ∃ j', i + 1 ≤ j' ∧ j' < i + 1 + count ∧
          b + 8 * UInt64.ofNat i = b + 8 * UInt64.ofNat j'
      · obtain ⟨j', hj', hlt', heq⟩ := hagain
        rw [heq]
        exact ih (i + 1) _ j' hj' hlt'
      · rw [clearEntries_other count (i + 1) _ (fun j' hj' hlt' heq => hagain ⟨j', hj', hlt', heq⟩)]
        exact store_mem_self (hhdm_cancel_index _ _)
    · exact ih (i + 1) _ j hj (by omega)

/-- The PDPT cleared and both entries of the PML4 set -/
theorem linked_initially {k p : Nat} (hkp : k < p) (hp : p < pmmMaxFrames)
    (hroot : s.kernelPml4 = frameAddress k + hhdmBase) :
    Linked k p (((clearEntries (frameAddress p + hhdmBase) 512 0 s).store (frameAddress k + hhdmBase)
      (tableEntry (frameAddress p))).store (frameAddress k + hhdmBase + 8 * hhdmPml4Index)
      (tableEntry (frameAddress p))) := by
  have hkmax : k < pmmMaxFrames := by omega
  have hzero : frameAddress k = frameAddress k + 8 * 0 := by grind
  have haway : ∀ (g j : UInt64), g.toNat < 512 → j.toNat < 64 →
      frameAddress p + 8 * j ≠ frameAddress k + 8 * g := by
    intro g j hg hj heq
    have hnat := congrArg UInt64.toNat heq
    rw [toNat_entryAddress hp rfl (by omega), toNat_entryAddress hkmax rfl hg] at hnat
    omega
  have htwo : frameAddress k + 8 * 0 ≠ frameAddress k + 8 * 256 := by
    intro heq
    have hnat := congrArg UInt64.toNat heq
    have h256 : (256 : UInt64).toNat = 256 := rfl
    rw [toNat_entryAddress hkmax rfl (by decide), toNat_entryAddress hkmax h256 (by decide),
      UInt64.toNat_zero] at hnat
    omega
  obtain ⟨m, hm⟩ := clearEntries_frame (frameAddress p + hhdmBase) 512 0 s
  -- The two stores are to frame `k`, and what was cleared is frame `p`.
  refine ⟨?_, ?_, ?_⟩
  · rw [store_kernelPml4, store_kernelPml4, hm]
    exact hroot
  · rintro g (rfl | rfl)
    · rw [store_mem_of_ne (by rw [hhdm_cancel_index]; exact htwo),
        store_mem_self (by rw [hhdm_cancel]; exact hzero)]
    · exact store_mem_self (hhdm_cancel_index _ _)
  · intro j hj
    rw [store_mem_of_ne, store_mem_of_ne]
    · have hcleared := clearEntries_zero (b := frameAddress p) 512 0 s j.toNat (Nat.zero_le _) (by omega)
      rwa [UInt64.ofNat_toNat] at hcleared
    · rw [hhdm_cancel, hzero]
      exact haway 0 j (by decide) hj
    · rw [hhdm_cancel_index]
      exact haway 256 j (by decide) hj

/-- **`vmm_init` up to CR3**: first fit gives the PML4 a lower frame than the PDPT, and the loop starts
with both in place. -/
theorem vmmInit_loaded {info : Option BootInfo} (h : vmmInit info s = .ok (.loaded, s')) :
    ∃ k p s₁ s₂, 1 ≤ k ∧ k < p ∧ p < pmmMaxFrames ∧ Linked k p s₁ ∧
      s₁.mapped2mbPages = bootstrapPages info ∧ s₁.pmm = (s.pmm.take k).take p ∧
      forRange mapBootstrapPage (bootstrapPages info).toNat 0 s₁ = .ok s₂ ∧
      s' = { s₂ with cr3 := frameAddress k } := by
  obtain ⟨⟨pml4, t⟩, hpml4, hrest⟩ := bind_eq_ok_iff.mp h
  change (if pml4 = 0 then _ else _) = _ at hrest
  split at hrest
  · cases hrest
  rename_i hne
  obtain ⟨k, hk, hkmax, -, hlow, rfl, rfl⟩ := tableAlloc_granted hpml4 hne
  obtain ⟨⟨pdpt, u⟩, hpdpt, hrest⟩ := bind_eq_ok_iff.mp hrest
  change (if pdpt = 0 then _ else _) = _ at hrest
  split at hrest
  · cases hrest
  rename_i hne'
  obtain ⟨m, hm⟩ := clearEntries_frame (frameAddress k + hhdmBase) 512 0
    { s with pmm := s.pmm.take k, kernelPml4 := frameAddress k + hhdmBase }
  change tableAlloc (clearEntries (frameAddress k + hhdmBase) 512 0
    { s with pmm := s.pmm.take k, kernelPml4 := frameAddress k + hhdmBase }) = _ at hpdpt
  rw [hm] at hpdpt
  obtain ⟨p, hp, hpmax, hpfree, -, rfl, hu⟩ := tableAlloc_granted hpdpt hne'
  have hroot : u.kernelPml4 = frameAddress k + hhdmBase := by rw [hu]
  have hpmm : u.pmm = (s.pmm.take k).take p := by rw [hu]
  obtain ⟨v, hloop, hlast⟩ := bind_eq_ok_iff.mp hrest
  -- Every frame below `k` was marked when the PML4 was allocated, and still is.
  have hkp : k < p := by
    change p ∉ (s.pmm.take k).used at hpfree
    rw [Pmm.used_take hkmax, Finset.mem_insert, not_or] at hpfree
    rcases Nat.lt_trichotomy k p with hlt | rfl | hgt
    · exact hlt
    · exact absurd rfl hpfree.1
    · exact absurd (hlow p hp hgt) hpfree.2
  have hs' : { v with cr3 := frameAddress k + hhdmBase - hhdmBase } = s' :=
    congrArg Prod.snd (Except.ok.inj hlast)
  rw [hhdm_cancel] at hs' hloop
  refine ⟨k, p, _, v, hk, hkp, hpmax, ?_, rfl, ?_, hloop, hs'.symm⟩
  · have hlinked := linked_initially hkp hpmax hroot
    simp only [tableEntry] at hlinked
    exact hlinked.withPages (bootstrapPages info)
  · obtain ⟨m', hm'⟩ := clearEntries_frame (frameAddress p + hhdmBase) 512 0 u
    simp only [store_pmm, hm']
    exact hpmm

/-- Up to 512 MiB, the PML4 and the PDPT are the only frames `vmm_init` takes. -/
theorem vmmInit_takes_two {info : Option BootInfo} (h : vmmInit info s = .ok (.loaded, s'))
    (hpages : (bootstrapPages info).toNat ≤ 256) :
    ∃ k p, k < pmmMaxFrames ∧ p < pmmMaxFrames ∧ s'.pmm = (s.pmm.take k).take p := by
  obtain ⟨k, p, s₁, s₂, hk, hkp, hp, hlinked, -, hpmm, hloop, rfl⟩ := vmmInit_loaded h
  have hend := forRange_carries mapBootstrapPage (fun _ t => Linked k p t ∧ t.pmm = s₁.pmm)
    (bootstrapPages info).toNat
    (by
      rintro i t t' hi ⟨ht, htpmm⟩ hpage
      obtain ⟨ht', hpmm'⟩ := ht.mapBootstrapPage hk hkp hp (by omega) (Or.inr (by omega)) hpage
      exact ⟨ht', hpmm'.trans htpmm⟩)
    (bootstrapPages info).toNat 0 s₁ s₂ (by omega) ⟨hlinked, rfl⟩ hloop
  exact ⟨k, p, by omega, hp, hend.2.trans hpmm⟩

/-! ## Address 0 is never mapped -/

theorem toNat_bootstrapPages_le (info : Option BootInfo) : (bootstrapPages info).toNat ≤ 2 ^ 15 := by
  have hmax : bootstrapMaxPages.toNat = 2 ^ 15 := by decide
  rw [bootstrapPages]
  show (if _ > bootstrapMaxPages then _ else _ : UInt64).toNat ≤ _
  split
  · exact le_of_eq hmax
  · rename_i hle
    rw [gt_iff_lt, UInt64.lt_iff_toNat_lt, hmax] at hle
    exact Nat.le_of_not_lt hle

theorem entry_zero (m : Paging.Memory) (b n : UInt64) : Paging.entry m b 0 n = m (b + 8 * 0) := by
  have hindex : (0 : UInt64) >>> n &&& 0x1FF = 0 := by simp
  rw [Paging.entry, hindex]

theorem Linked.translate_zero {k p : Nat} (h : Linked k p s) (hk : k < pmmMaxFrames)
    (hp : p < pmmMaxFrames) : Paging.translate s.mem (frameAddress k) 0 = none := by
  have hmod := frameAddress_mod hp
  have hlt := frameAddress_lt hp
  apply Paging.translate_of_pdpt
  have haddr : Paging.address (tableEntry (frameAddress p)) = frameAddress p := by
    apply UInt64.toNat_inj.mp
    rw [Paging.toNat_address, toNat_tableEntry hmod]
    omega
  have hpml4 : Paging.entry s.mem (Paging.address (frameAddress k)) 0 39 =
      tableEntry (frameAddress p) := by
    rw [entry_zero, address_of_aligned (frameAddress_mod hk) (frameAddress_lt hk),
      h.entries 0 (Or.inl rfl)]
  rw [hpml4, haddr, entry_zero, h.empty 0 (by decide)]
  rfl

theorem Clobbered.translate_zero {p : Nat} (h : Clobbered p s) :
    Paging.translate s.mem (frameAddress 1) 0 = none := by
  apply Paging.translate_of_pml4
  obtain ⟨w, hmod, hlt, hw⟩ := h.low
  have hps : Paging.pageSize (hugeEntry w) = true := by
    rw [Paging.pageSize_iff, toNat_hugeEntry (by omega)]
    omega
  rw [entry_zero, address_of_aligned (by decide) (by decide), hw, hps]
  simp

/-- When `vmm_init` loads CR3, address 0 has no translation. -/
theorem translate_zero_of_vmmInit {info : Option BootInfo}
    (h : vmmInit info s = .ok (.loaded, s')) : Paging.translate s'.mem s'.cr3 0 = none := by
  obtain ⟨k, p, s₁, s₂, hk, hkp, hp, hlinked, -, -, hloop, rfl⟩ := vmmInit_loaded h
  have hpages := toNat_bootstrapPages_le info
  have hend := forRange_carries mapBootstrapPage (LinkedOrClobbered k p) (bootstrapPages info).toNat
    (fun i t t' hi ht hpage => mapBootstrapPage_keeps hk hkp hp (by omega) ht hpage)
    (bootstrapPages info).toNat 0 s₁ s₂ (by omega) (Or.inl ⟨hlinked, fun _ => by omega⟩) hloop
  rcases hend with ⟨hlinked', -⟩ | ⟨rfl, hclob⟩
  · exact hlinked'.translate_zero (by omega) hp
  · exact hclob.translate_zero

/-! ## What the loop leaves alone -/

theorem steady_mapAt {a value : UInt64} {n : Nat} {r : Bool}
    (h : mapAt a value (n + 1) s = .ok (r, s')) : Steady s s' := by
  obtain ⟨pd, t, hwalk, rfl | rfl⟩ := mapAt_cases h
  · exact steady_walkPml4 hwalk
  · exact (steady_walkPml4 hwalk).trans (steady_store _ _ _)

theorem steady_mapBootstrapPage {i : Nat} (h : mapBootstrapPage i s = .ok s') : Steady s s' := by
  obtain ⟨mapped, t, hfirst, ⟨-, rfl⟩ | ⟨-, r, hsecond⟩⟩ := mapBootstrapPage_cases h
  · exact steady_mapAt hfirst
  · exact (steady_mapAt hfirst).trans (steady_mapAt hsecond)

theorem vmmInit_steady {info : Option BootInfo} (h : vmmInit info s = .ok (.loaded, s')) :
    s'.mapped2mbPages = bootstrapPages info ∧ s'.pmm.totalFrames = s.pmm.totalFrames := by
  obtain ⟨k, p, s₁, s₂, -, -, -, -, hpages, hpmm, hloop, rfl⟩ := vmmInit_loaded h
  have hsteady := forRange_carries mapBootstrapPage (fun _ t => Steady s₁ t) (bootstrapPages info).toNat
    (fun i t t' _ ht hpage => ht.trans (steady_mapBootstrapPage hpage))
    (bootstrapPages info).toNat 0 s₁ s₂ (by omega) (Steady.refl s₁) hloop
  refine ⟨hsteady.mapped2mbPages.trans hpages, hsteady.totalFrames.trans ?_⟩
  rw [hpmm]
  rfl

/-! ## How much is mapped -/

theorem toNat_bootstrapMapLimit : bootstrapMapLimit.toNat = 2 ^ 36 := by decide

/-- Clamping to the limit -/
theorem toNat_clamp (b : UInt64) :
    (if b > bootstrapMapLimit then bootstrapMapLimit else b).toNat = min b.toNat (2 ^ 36) := by
  split
  · rename_i h
    rw [gt_iff_lt, UInt64.lt_iff_toNat_lt, toNat_bootstrapMapLimit] at h
    rw [toNat_bootstrapMapLimit]
    omega
  · rename_i h
    rw [gt_iff_lt, UInt64.lt_iff_toNat_lt, toNat_bootstrapMapLimit] at h
    omega

theorem toNat_raise (x b : UInt64) : (if x > b then x else b).toNat = max x.toNat b.toNat := by
  split
  · rename_i h
    rw [gt_iff_lt, UInt64.lt_iff_toNat_lt] at h
    omega
  · rename_i h
    rw [gt_iff_lt, UInt64.lt_iff_toNat_lt] at h
    omega

/-- `map_bytes` is at least 1 and at most 64 GiB, and covers `total_memory_bytes` up to there. -/
theorem toNat_mapBytes (info : Option BootInfo) :
    1 ≤ (mapBytes info).toNat ∧ (mapBytes info).toNat ≤ 2 ^ 36 ∧
      ∀ i, info = some i → min i.totalMemoryBytes.toNat (2 ^ 36) ≤ (mapBytes info).toNat := by
  simp only [mapBytes, toNat_clamp, toNat_raise]
  have hdefault : (2 * 1024 * 1024 : UInt64).toNat = 2 ^ 21 := by decide
  cases info with
  | none =>
    simp only [if_true, hdefault]
    refine ⟨by omega, by omega, fun i hi => by cases hi⟩
  | some i =>
    dsimp only
    have hbytes : 1 ≤ (if i.totalMemoryBytes = 0 then 2 * 1024 * 1024 else i.totalMemoryBytes).toNat ∧
        i.totalMemoryBytes.toNat ≤
          (if i.totalMemoryBytes = 0 then 2 * 1024 * 1024 else i.totalMemoryBytes).toNat := by
      split
      · rename_i h0
        rw [h0, hdefault, UInt64.toNat_zero]
        omega
      · rename_i h0
        have hne : i.totalMemoryBytes.toNat ≠ 0 := fun h => h0 (UInt64.toNat_inj.mp h)
        omega
    refine ⟨by omega, by omega, ?_⟩
    rintro j hj
    cases hj
    omega

/-- The pages cover `map_bytes`. -/
theorem toNat_bootstrapPages (info : Option BootInfo) :
    (mapBytes info).toNat ≤ (bootstrapPages info).toNat * 2 ^ 21 := by
  obtain ⟨-, hle, -⟩ := toNat_mapBytes info
  have hsize : bootstrapPageSize.toNat = 2 ^ 21 := by decide
  have hmax : bootstrapMaxPages.toNat = 2 ^ 15 := by decide
  have hpages : ((mapBytes info + bootstrapPageSize - 1) / bootstrapPageSize).toNat =
      ((mapBytes info).toNat + 2 ^ 21 - 1) / 2 ^ 21 := by
    rw [UInt64.toNat_div, UInt64.toNat_sub, UInt64.toNat_add, hsize, UInt64.toNat_one]
    omega
  -- Rounding up covers `map_bytes`; the clamp is 64 GiB, which it never exceeds.
  rw [bootstrapPages]
  show _ ≤ (if _ > bootstrapMaxPages then _ else _ : UInt64).toNat * _
  split
  · rw [hmax]
    omega
  · rw [hpages]
    omega

theorem toNat_vmmMappedBytes {info : Option BootInfo} (h : s.mapped2mbPages = bootstrapPages info) :
    (vmmMappedBytes s).toNat = (bootstrapPages info).toNat * 2 ^ 21 := by
  have hsize : bootstrapPageSize.toNat = 2 ^ 21 := by decide
  have hle := toNat_bootstrapPages_le info
  rw [vmmMappedBytes, h, UInt64.toNat_mul, hsize]
  omega

theorem vmmMappedBytes_pos {info : Option BootInfo} (h : s.mapped2mbPages = bootstrapPages info) :
    0 < (vmmMappedBytes s).toNat := by
  obtain ⟨hone, -⟩ := toNat_mapBytes info
  have hcover := toNat_bootstrapPages info
  rw [toNat_vmmMappedBytes h]
  omega

/-! ## `vmm_init` runs -/

theorem mapAt_runs (h : Sound s) (a value : UInt64) (n : Nat) :
    ∃ r s', mapAt a value n s = .ok (r, s') := by
  obtain ⟨pd, u, hu⟩ := walkPml4_runs h s.kernelPml4 a true
  rw [mapAt, hu, ok_bind]
  show ∃ r s', (if pd = 0 then _ else _) = _
  split
  · exact ⟨_, _, rfl⟩
  · exact ⟨_, _, rfl⟩

theorem mapBootstrapPage_runs (h : Sound s) (i : Nat) : ∃ s', mapBootstrapPage i s = .ok s' := by
  obtain ⟨mapped, u, hu⟩ := mapAt_runs h (pageAddress i) (hugeEntry (pageAddress i)) (1 + 1)
  have hsound := h.steady (steady_mapAt hu)
  show ∃ s', (mapAt (pageAddress i) (hugeEntry (pageAddress i)) (1 + 1) s >>= _) = _
  rw [hu, ok_bind]
  cases mapped with
  | false => exact ⟨u, rfl⟩
  | true =>
    obtain ⟨r, v, hv⟩ := mapAt_runs hsound (hhdmBase + pageAddress i) (hugeEntry (pageAddress i)) 1
    show ∃ s', (mapAt (hhdmBase + pageAddress i) (hugeEntry (pageAddress i)) 1 u >>= _) = _
    rw [hv]
    exact ⟨v, rfl⟩

/-- Two unmarked frames below `total_frames` are all `vmm_init` needs to load CR3. -/
theorem vmmInit_runs {f g : Nat} (h : Sound s) (info : Option BootInfo) (hf : 1 ≤ f) (hfg : f < g)
    (hg : g < s.pmm.totalFrames.toNat) (hffree : f ∉ s.pmm.used) (hgfree : g ∉ s.pmm.used) :
    ∃ s', vmmInit info s = .ok (.loaded, s') := by
  obtain ⟨pml4, t, k, halloc, hne, hk, hkf, rfl⟩ := tableAlloc_of_free h hf (by omega) hffree
  rw [vmmInit, halloc, ok_bind]
  show ∃ s', (if pml4 = 0 then _ else _) = _
  rw [if_neg hne]
  obtain ⟨m, hm⟩ := clearEntries_frame pml4 512 0
    { s with pmm := s.pmm.take k, kernelPml4 := pml4 }
  show ∃ s', (tableAlloc (clearEntries pml4 512 0
    { s with pmm := s.pmm.take k, kernelPml4 := pml4 }) >>= _) = _
  rw [hm]
  have hsound : Sound { s with pmm := s.pmm.take k, kernelPml4 := pml4, mem := m } := h
  have hgfree' : g ∉ (s.pmm.take k).used := by
    rw [Pmm.used_take hk, Finset.mem_insert, not_or]
    exact ⟨by omega, hgfree⟩
  obtain ⟨pdpt, u, p, halloc', hne', -, -, hu⟩ :=
    tableAlloc_of_free hsound (by omega : 1 ≤ g) hg hgfree'
  have hsoundu : Sound u := by
    rw [hu]
    exact h
  rw [halloc', ok_bind]
  show ∃ s', (if pdpt = 0 then _ else _) = _
  rw [if_neg hne']
  obtain ⟨m', hm'⟩ := clearEntries_frame pdpt 512 0 u
  rw [hm']
  -- Each page maps or gives up, and the allocator stays sound either way.
  obtain ⟨v, hv, -⟩ := forRange_runs mapBootstrapPage (fun _ t => Sound t) (bootstrapPages info).toNat
    (by
      intro i t _ ht
      obtain ⟨t', ht'⟩ := mapBootstrapPage_runs ht i
      exact ⟨t', ht', ht.steady (steady_mapBootstrapPage ht')⟩)
    (bootstrapPages info).toNat 0
    { State.store (State.store { u with mem := m' } pml4 (pdpt - hhdmBase ||| PRESENT ||| WRITE))
        (pml4 + 8 * hhdmPml4Index) (pdpt - hhdmBase ||| PRESENT ||| WRITE) with
      mapped2mbPages := bootstrapPages info } (by omega) hsoundu
  show ∃ s', (forRange mapBootstrapPage (bootstrapPages info).toNat 0 _ >>= _) = _
  rw [hv]
  exact ⟨_, rfl⟩

/-! ## No maps -/

/-- What `vmm_init` is for, from state `s`: both windows translate, with write permission, through
tables that it allocated, and it wrote to those tables only. -/
structure MapsBuilt (s s' : State) : Prop where
  identity : ∀ v < vmmMappedBytes s', ∃ u, Paging.translate s'.mem s'.cr3 v = some ⟨v, true, u⟩
  higherHalf : ∀ v < vmmMappedBytes s',
    ∃ u, Paging.translate s'.mem s'.cr3 (hhdmBase + v) = some ⟨v, true, u⟩
  tables : ∀ v < vmmMappedBytes s', ∀ a, a = v ∨ a = hhdmBase + v →
    ∀ t ∈ Paging.tables s'.mem s'.cr3 a, ∃ f, t = frameAddress f ∧ f ∈ s'.pmm.used ∧ f ∉ s.pmm.used
  confined : ∀ a, s'.mem a ≠ s.mem a →
    ∃ f, a.toNat / 4096 = f ∧ f ∈ s'.pmm.used ∧ f ∉ s.pmm.used

/-- **`vmm_init` never builds the maps.** Whatever the boot info, the allocator and memory are, when it
loads CR3 at least one page counts as mapped, and address 0 in it has no translation. -/
theorem no_maps_built (info : Option BootInfo) (s s' : State)
    (h : vmmInit info s = .ok (.loaded, s')) : ¬ MapsBuilt s s' := by
  intro hbuilt
  have hpos := vmmMappedBytes_pos (vmmInit_steady h).1
  obtain ⟨u, hu⟩ := hbuilt.identity 0 (UInt64.lt_iff_toNat_lt.mpr hpos)
  rw [translate_zero_of_vmmInit h] at hu
  cases hu

/-- The statics of `vmm.c` before `vmm_init`, over zeroed memory -/
def bareState (q : Pmm.State) : State :=
  { pmm := q, mem := fun _ => 0, kernelPml4 := 0, mapped2mbPages := 0, cr3 := 0 }

/-- Two MiB of conventional memory with one reserved frame are enough for `vmm_init` to load CR3. -/
theorem vmmInit_of_booted {info : BootInfo} {q : Pmm.State} (hboot : Pmm.BootedBelow info q)
    (hused : Pmm.initiallyUsed info = {256}) (hpages : Pmm.conventionalPages info.descriptors = 512) :
    ∃ s', vmmInit (some info) (bareState q) = .ok (.loaded, s') := by
  have htotal : q.totalFrames.toNat = 512 := hboot.totalFrames.trans hpages
  apply vmmInit_runs (s := bareState q) (f := 1) (g := 2) hboot.inBitmap
  · decide
  · decide
  · show 2 < q.totalFrames.toNat
    omega
  · show 1 ∉ q.used
    rw [hboot.booted.used, hused]
    decide
  · show 2 ∉ q.used
    rw [hboot.booted.used, hused]
    decide

theorem vmmInit_flatMemory :
    ∃ s₀ s', Pmm.pmmInit (some (Pmm.oneEntryInfo Pmm.flatMemory)) = .ok s₀ ∧
      vmmInit (some (Pmm.oneEntryInfo Pmm.flatMemory)) (bareState s₀) = .ok (.loaded, s') := by
  obtain ⟨s₀, hs₀⟩ := Pmm.pmmInit_oneEntryInfo (d := Pmm.flatMemory) (by decide) (by decide)
  have hboot := Pmm.bootedBelow (Pmm.mapWellFormed_oneEntryInfo (d := Pmm.flatMemory) (by decide))
    (Pmm.conventionalBelow_oneEntryInfo (by decide)) hs₀
  obtain ⟨s', hs'⟩ := vmmInit_of_booted hboot (Pmm.initiallyUsed_oneEntryInfo _)
    (Pmm.conventionalPages_oneEntryInfo (d := Pmm.flatMemory) rfl)
  exact ⟨s₀, s', hs₀, hs'⟩

theorem no_maps_built_flatMemory :
    ∃ s s', vmmInit (some (Pmm.oneEntryInfo Pmm.flatMemory)) s = .ok (.loaded, s') ∧
      ¬ MapsBuilt s s' := by
  obtain ⟨s₀, s', -, hs'⟩ := vmmInit_flatMemory
  exact ⟨bareState s₀, s', hs', no_maps_built _ _ s' hs'⟩

/-- On a machine with 2 MiB of memory `vmm_init` allocates both tables it asks for and loads CR3, and
address 0 is not mapped. -/
theorem zero_unmapped_flatMemory :
    ∃ s₀ s', Pmm.pmmInit (some (Pmm.oneEntryInfo Pmm.flatMemory)) = .ok s₀ ∧
      vmmInit (some (Pmm.oneEntryInfo Pmm.flatMemory)) (bareState s₀) = .ok (.loaded, s') ∧
      0 < (vmmMappedBytes s').toNat ∧ Paging.translate s'.mem s'.cr3 0 = none := by
  obtain ⟨s₀, s', hs₀, hs'⟩ := vmmInit_flatMemory
  refine ⟨s₀, s', hs₀, hs', ?_, translate_zero_of_vmmInit hs'⟩
  exact vmmMappedBytes_pos (vmmInit_steady hs').1

end MinOS.Vmm
