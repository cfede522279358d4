/-
# MinOS.Vmm.Walk — `walk_pml4`, step by step.

What one step of the walk does, before anything is said about a whole page map: an entry whose address
field lies below 2^47 is followed whether it is present or not, because the NULL test comes after the
direct-map base has been added; any other step asks the allocator for a table. `Steady` is what no step
changes, and `Sound` what makes every step return.
-/
import MinOS.Pmm.Frames
import MinOS.Vmm.Model

namespace MinOS.Vmm

open MinOS.Pmm (Fault pmmAllocFrame pmmAllocFrame_cases frameAddress toNat_frameAddress
  frameAddress_ne_zero pmmMaxFrames pmmMaxFrames_eq)
open Machine (bind_eq_ok_iff ok_bind)

/-! ## Pointers and entries -/

theorem hhdm_cancel (b : UInt64) : b + hhdmBase - hhdmBase = b := UInt64.add_sub_cancel b hhdmBase

/-- The physical address of an entry of the table at `b` -/
theorem hhdm_cancel_index (b i : UInt64) : b + hhdmBase + i - hhdmBase = b + i := by
  grind

theorem toNat_hhdmBase : hhdmBase.toNat = 18446603336221196288 := by decide

/-- A table below 2^47 does not look like NULL. -/
theorem add_hhdm_ne_zero {b : UInt64} (h : b.toNat < 2 ^ 47) : b + hhdmBase ≠ 0 := by
  intro h0
  have hnat := congrArg UInt64.toNat h0
  rw [UInt64.toNat_add, toNat_hhdmBase, UInt64.toNat_zero] at hnat
  omega

theorem frameAddress_mod {f : Nat} (hf : f < pmmMaxFrames) : (frameAddress f).toNat % 4096 = 0 := by
  rw [toNat_frameAddress hf]
  omega

theorem frameAddress_lt {f : Nat} (hf : f < pmmMaxFrames) : (frameAddress f).toNat < 2 ^ 52 := by
  rw [toNat_frameAddress hf]
  rw [pmmMaxFrames_eq] at hf
  omega

theorem toNat_entryAddress {f n : Nat} {j : UInt64} (hf : f < pmmMaxFrames) (hj : j.toNat = n)
    (hn : n < 512) : (frameAddress f + 8 * j).toNat = f * 4096 + 8 * n := by
  have h8 : (8 : UInt64).toNat = 8 := rfl
  rw [pmmMaxFrames_eq] at hf
  rw [UInt64.toNat_add, UInt64.toNat_mul, h8, hj, toNat_frameAddress (by rw [pmmMaxFrames_eq]; exact hf)]
  omega

/-- The entry for a table -/
def tableEntry (b : UInt64) : UInt64 := b ||| PRESENT ||| WRITE

theorem toNat_tableEntry {b : UInt64} (h : b.toNat % 4096 = 0) :
    (tableEntry b).toNat = b.toNat + 3 := by
  have hflags : PRESENT ||| WRITE = 3 := by decide
  rw [tableEntry, UInt64.or_assoc, hflags,
    Word.toNat_or_low (k := 12) b 3 (Nat.dvd_of_mod_eq_zero h) (by decide)]
  rfl

/-- Rounding an aligned address plus flags down gives the address back. -/
theorem mask_of_toNat {e b : UInt64} {f : Nat} (hb : b.toNat % 4096 = 0) (hf : f < 4096)
    (he : e.toNat = b.toNat + f) : e &&& ~~~0xFFF = b := by
  apply UInt64.toNat_inj.mp
  rw [Word.toNat_and_not_low (k := 12) e 0xFFF rfl, he]
  omega

theorem mask_tableEntry {b : UInt64} (h : b.toNat % 4096 = 0) : tableEntry b &&& ~~~0xFFF = b :=
  mask_of_toNat h (by decide) (toNat_tableEntry h)

theorem address_of_aligned {b : UInt64} (hmod : b.toNat % 4096 = 0) (hlt : b.toNat < 2 ^ 52) :
    Paging.address b = b := by
  apply UInt64.toNat_inj.mp
  rw [Paging.toNat_address]
  omega

theorem toNat_pml4Idx (v : UInt64) : (pml4Idx v).toNat = v.toNat / 2 ^ 39 % 512 :=
  Word.toNat_shift_and (k := 9) v 39 0x1FF rfl (by decide) rfl

theorem toNat_pdptIdx (v : UInt64) : (pdptIdx v).toNat = v.toNat / 2 ^ 30 % 512 :=
  Word.toNat_shift_and (k := 9) v 30 0x1FF rfl (by decide) rfl

theorem toNat_pdIdx (v : UInt64) : (pdIdx v).toNat = v.toNat / 2 ^ 21 % 512 :=
  Word.toNat_shift_and (k := 9) v 21 0x1FF rfl (by decide) rfl

/-! ## One step of the walk -/

variable {s s' : State}

@[simp] theorem store_kernelPml4 (s : State) (ptr value : UInt64) :
    (s.store ptr value).kernelPml4 = s.kernelPml4 := rfl

@[simp] theorem store_pmm (s : State) (ptr value : UInt64) : (s.store ptr value).pmm = s.pmm := rfl

theorem store_mem_self {ptr value a : UInt64} (h : ptr - hhdmBase = a) :
    (s.store ptr value).mem a = value := by
  subst h
  exact Function.update_self _ _ _

theorem store_mem_of_ne {ptr value a : UInt64} (h : a ≠ ptr - hhdmBase) :
    (s.store ptr value).mem a = s.mem a := Function.update_of_ne h _ _

theorem load_entry (s : State) (b i : UInt64) : s.load (b + hhdmBase + i) = s.mem (b + i) := by
  rw [State.load, hhdm_cancel_index]

/-- An entry whose address lies below 2^47 is followed, present or not. -/
theorem nextTable_followed {b idx e : UInt64} (create : Bool) (he : s.mem (b + 8 * idx) = e)
    (hlow : (e &&& ~~~0xFFF).toNat < 2 ^ 47) :
    nextTable (b + hhdmBase) idx create s = .ok ((e &&& ~~~0xFFF) + hhdmBase, s) := by
  rw [nextTable, load_entry, he]
  exact if_pos (add_hhdm_ne_zero hlow)

theorem tableAlloc_cases {t : UInt64} (h : tableAlloc s = .ok (t, s')) :
    ∃ q, s' = { s with pmm := q } := by
  obtain ⟨⟨phys, q⟩, -, hrest⟩ := bind_eq_ok_iff.mp h
  cases hrest
  exact ⟨q, rfl⟩

/-- A table that was allocated lies in the lowest unmarked frame. -/
theorem tableAlloc_granted {t : UInt64} (h : tableAlloc s = .ok (t, s')) (ht : t ≠ 0) :
    ∃ f, 1 ≤ f ∧ f < pmmMaxFrames ∧ f ∉ s.pmm.used ∧ (∀ g, 1 ≤ g → g < f → g ∈ s.pmm.used) ∧
      t = frameAddress f + hhdmBase ∧ s' = { s with pmm := s.pmm.take f } := by
  obtain ⟨⟨phys, q⟩, halloc, hrest⟩ := bind_eq_ok_iff.mp h
  have hpair := Except.ok.inj hrest
  have ht' : (if phys = 0 then 0 else phys + hhdmBase) = t := congrArg Prod.fst hpair
  have hs' : { s with pmm := q } = s' := congrArg Prod.snd hpair
  rcases pmmAllocFrame_cases halloc with ⟨rfl, -, -⟩ | ⟨f, hpos, -, hmax, hfree, hlow, rfl, rfl⟩
  · exact absurd ht'.symm ht
  · rw [if_neg (frameAddress_ne_zero hpos hmax)] at ht'
    exact ⟨f, hpos, hmax, hfree, hlow, ht'.symm, hs'.symm⟩

/-- A step of the walk either follows the entry, or changes the allocator, or links a fresh table. -/
theorem nextTable_cases {b idx t : UInt64} (h : nextTable (b + hhdmBase) idx true s = .ok (t, s')) :
    (∃ q, s' = { s with pmm := q }) ∨
      ∃ q value, s' = State.store { s with pmm := q } (b + hhdmBase + 8 * idx) value := by
  rw [nextTable] at h
  change (if _ ≠ _ then _ else _) = _ at h
  split at h
  · have hs : s = s' := congrArg Prod.snd (Except.ok.inj h)
    exact Or.inl ⟨s.pmm, hs.symm⟩
  · obtain ⟨⟨fresh, s₁⟩, halloc, hrest⟩ := bind_eq_ok_iff.mp h
    obtain ⟨q, rfl⟩ := tableAlloc_cases halloc
    change (if fresh = 0 then _ else _) = _ at hrest
    split at hrest
    · cases hrest
      exact Or.inl ⟨q, rfl⟩
    · cases hrest
      exact Or.inr ⟨q, _, rfl⟩

/-! ## What the walk leaves alone -/

/-- The number of mapped pages and `total_frames` are as before. -/
structure Steady (s s' : State) : Prop where
  mapped2mbPages : s'.mapped2mbPages = s.mapped2mbPages
  totalFrames : s'.pmm.totalFrames = s.pmm.totalFrames

theorem Steady.refl (s : State) : Steady s s := ⟨rfl, rfl⟩

theorem Steady.trans {s t u : State} (h : Steady s t) (h' : Steady t u) : Steady s u :=
  ⟨h'.mapped2mbPages.trans h.mapped2mbPages, h'.totalFrames.trans h.totalFrames⟩

theorem steady_store (s : State) (ptr value : UInt64) : Steady s (s.store ptr value) := ⟨rfl, rfl⟩

theorem steady_tableAlloc {t : UInt64} (h : tableAlloc s = .ok (t, s')) : Steady s s' := by
  obtain ⟨⟨phys, q⟩, halloc, hrest⟩ := bind_eq_ok_iff.mp h
  cases hrest
  exact ⟨rfl, (Pmm.pmmAllocFrame_grant halloc).totalFrames⟩

theorem steady_nextTable {table idx t : UInt64} {create : Bool}
    (h : nextTable table idx create s = .ok (t, s')) : Steady s s' := by
  rw [nextTable] at h
  change (if _ ≠ _ then _ else _) = _ at h
  split at h
  · have hs : s = s' := congrArg Prod.snd (Except.ok.inj h)
    exact hs ▸ Steady.refl s
  · split at h
    · obtain ⟨⟨fresh, u⟩, halloc, hrest⟩ := bind_eq_ok_iff.mp h
      change (if fresh = 0 then _ else _) = _ at hrest
      split at hrest
      · cases hrest
        exact steady_tableAlloc halloc
      · cases hrest
        exact (steady_tableAlloc halloc).trans (steady_store _ _ _)
    · cases h
      exact Steady.refl s

theorem steady_walkPml4 {pml4 vaddr t : UInt64} {create : Bool}
    (h : walkPml4 pml4 vaddr create s = .ok (t, s')) : Steady s s' := by
  obtain ⟨⟨pdpt, u⟩, hpdpt, hrest⟩ := bind_eq_ok_iff.mp h
  -- The second step is made only if the first returned a table.
  change (if pdpt = 0 then _ else _) = _ at hrest
  split at hrest
  · cases hrest
    exact steady_nextTable hpdpt
  · obtain ⟨⟨pd, v⟩, hpd, hrest⟩ := bind_eq_ok_iff.mp hrest
    have hsteady := (steady_nextTable hpdpt).trans (steady_nextTable hpd)
    change (if pd = 0 then _ else _) = _ at hrest
    split at hrest
    · cases hrest
      exact hsteady
    · have hs : v = s' := congrArg Prod.snd (Except.ok.inj hrest)
      exact hs ▸ hsteady

/-! ## The walk runs -/

/-- The allocator cannot fault. -/
def Sound (s : State) : Prop := s.pmm.totalFrames.toNat ≤ pmmMaxFrames

theorem Sound.steady (h : Sound s) (hs : Steady s s') : Sound s' := by
  rw [Sound, hs.totalFrames]
  exact h

theorem tableAlloc_runs (h : Sound s) : ∃ t s', tableAlloc s = .ok (t, s') := by
  obtain ⟨a, q, hq⟩ := Pmm.pmmAllocFrame_runs h
  rw [tableAlloc, hq]
  exact ⟨_, _, rfl⟩

theorem nextTable_runs (h : Sound s) (table idx : UInt64) (create : Bool) :
    ∃ t s', nextTable table idx create s = .ok (t, s') := by
  rw [nextTable]
  show ∃ t s', (if _ ≠ _ then _ else _) = _
  split
  · exact ⟨_, _, rfl⟩
  · split
    · obtain ⟨t, u, hu⟩ := tableAlloc_runs h
      rw [hu, ok_bind]
      dsimp only
      split
      · exact ⟨_, _, rfl⟩
      · exact ⟨_, _, rfl⟩
    · exact ⟨_, _, rfl⟩

theorem walkPml4_runs (h : Sound s) (pml4 vaddr : UInt64) (create : Bool) :
    ∃ t s', walkPml4 pml4 vaddr create s = .ok (t, s') := by
  obtain ⟨pdpt, u, hu⟩ := nextTable_runs h pml4 (pml4Idx vaddr) create
  rw [walkPml4, hu, ok_bind]
  show ∃ t s', (if pdpt = 0 then _ else _) = _
  split
  · exact ⟨_, _, rfl⟩
  · obtain ⟨pd, v, hv⟩ := nextTable_runs (h.steady (steady_nextTable hu)) pdpt (pdptIdx vaddr) create
    rw [hv, ok_bind]
    show ∃ t s', (if pd = 0 then _ else _) = _
    split
    · exact ⟨_, _, rfl⟩
    · exact ⟨_, _, rfl⟩

/-- A table can be allocated while an unmarked frame is left, and takes one frame. -/
theorem tableAlloc_of_free {f : Nat} (h : Sound s) (hpos : 1 ≤ f)
    (hlt : f < s.pmm.totalFrames.toNat) (hfree : f ∉ s.pmm.used) :
    ∃ t s' g, tableAlloc s = .ok (t, s') ∧ t ≠ 0 ∧ g < pmmMaxFrames ∧ g ≤ f ∧
      s' = { s with pmm := s.pmm.take g } := by
  obtain ⟨a, q, hq⟩ := Pmm.pmmAllocFrame_runs h
  rcases pmmAllocFrame_cases hq with ⟨-, -, hall⟩ | ⟨g, hg, -, hmax, -, hlow, rfl, rfl⟩
  · exact absurd (hall f hpos hlt) hfree
  · refine ⟨frameAddress g + hhdmBase, _, g, ?_, ?_, hmax, ?_, rfl⟩
    · rw [tableAlloc, hq, ok_bind]
      show Except.ok (if frameAddress g = 0 then _ else _, _) = _
      rw [if_neg (frameAddress_ne_zero hg hmax)]
    · apply add_hhdm_ne_zero
      rw [toNat_frameAddress hmax]
      rw [pmmMaxFrames_eq] at hmax
      omega
    · by_contra hgt
      exact hfree (hlow f hpos (by omega))

end MinOS.Vmm
