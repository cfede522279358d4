/-
# MinOS.Vmm.User — what `vmm_map_user_page` and `vmm_unmap_user_page` do to translations.

Over well-formed tables `walk_pml4` practically never returns NULL: it takes an empty entry for a table at
physical address 0. So on an unmapped address `vmm_unmap_user_page` stores through an entry and reports
success, and `vmm_map_user_page` reports success without a translation to show for it. The one state in
which the walk does stop is spelled out (`Misses`), and with it the exact condition under which the two
calls keep their promise for a given page.
-/
import MinOS.Vmm.Walk

namespace MinOS.Vmm

open MinOS.Pmm (Fault pmmAllocFrame pmmAllocFrame_cases frameAddress toNat_frameAddress
  frameAddress_ne_zero pmmMaxFrames pmmMaxFrames_eq)
open Machine (bind_eq_ok_iff ok_bind)

variable {s s' : State} {p v : UInt64}

/-! ## Well-formed tables -/

/-- The translation of `v` under `kernel_pml4` -/
def translation (s : State) (v : UInt64) : Option Paging.Mapping :=
  Paging.translate s.mem (s.kernelPml4 - hhdmBase) v

/-- Frame `f` is one the allocator has handed out. -/
structure TableFrame (s : State) (f : Nat) : Prop where
  pos : 1 ≤ f
  lt : f < pmmMaxFrames
  marked : f ∈ s.pmm.used

/-- The entry is empty, or present and nothing but the address of a table and flags. -/
def EntryOk (s : State) (e : UInt64) : Prop :=
  e = 0 ∨ Paging.present e = true ∧ ∃ f, TableFrame s f ∧ e &&& ~~~0xFFF = frameAddress f

/-- The tables under `kernel_pml4` are well formed: it lies in an allocated frame, and the entries of it
and of the tables it points to are empty or point to allocated frames. -/
structure TablesWellFormed (s : State) : Prop where
  root : ∃ k, TableFrame s k ∧ s.kernelPml4 = frameAddress k + hhdmBase
  pml4 : ∀ i : UInt64, i < 512 → EntryOk s (s.load (s.kernelPml4 + 8 * i))
  pdpt : ∀ i : UInt64, i < 512 → Paging.present (s.load (s.kernelPml4 + 8 * i)) = true →
    ∀ j : UInt64, j < 512 →
      EntryOk s (s.mem ((s.load (s.kernelPml4 + 8 * i) &&& ~~~0xFFF) + 8 * j))

/-- What mapping page `p` at `v` is for, with its undoing: a mapping that succeeds translates the page to
`p`, for the user, and nothing else changes; unmapping it then succeeds and restores every translation;
unmapping an address without a mapping is refused and changes nothing. -/
structure MapsExactly (s : State) (p v : UInt64) : Prop where
  page : ∀ s', vmmMapUserPage p v s = .ok (0, s') → ∀ o : UInt64, o < 4096 →
    ∃ w, translation s' (v + o) = some ⟨p + o, w, true⟩
  others : ∀ s', vmmMapUserPage p v s = .ok (0, s') → ∀ u : UInt64,
    (∀ o : UInt64, o < 4096 → u ≠ v + o) → translation s' u = translation s u
  undone : ∀ s', vmmMapUserPage p v s = .ok (0, s') → ∃ s'', vmmUnmapUserPage v s' = .ok (0, s'') ∧
    ∀ u, translation s'' u = translation s u
  absent : translation s v = none → vmmUnmapUserPage v s = .ok (-1, s)

/-! ## The walk over well-formed tables -/

theorem pml4Idx_lt (v : UInt64) : pml4Idx v < 512 := by
  apply UInt64.lt_iff_toNat_lt.mpr
  rw [toNat_pml4Idx]
  exact Nat.mod_lt _ (by decide)

theorem pdptIdx_lt (v : UInt64) : pdptIdx v < 512 := by
  apply UInt64.lt_iff_toNat_lt.mpr
  rw [toNat_pdptIdx]
  exact Nat.mod_lt _ (by decide)

theorem pdIdx_lt (v : UInt64) : pdIdx v < 512 := by
  apply UInt64.lt_iff_toNat_lt.mpr
  rw [toNat_pdIdx]
  exact Nat.mod_lt _ (by decide)

theorem frameAddress_low {f : Nat} (hf : f < pmmMaxFrames) : (frameAddress f).toNat < 2 ^ 47 := by
  rw [toNat_frameAddress hf]
  rw [pmmMaxFrames_eq] at hf
  omega

/-- Every entry of a well-formed table is followed. -/
theorem EntryOk.low {e : UInt64} (h : EntryOk s e) : (e &&& ~~~0xFFF).toNat < 2 ^ 47 := by
  rcases h with rfl | ⟨-, f, hf, haddr⟩
  · decide
  · rw [haddr]
    exact frameAddress_low hf.lt

/-- An entry of a table that is not NULL is not at NULL. -/
theorem entry_ne_zero {t : UInt64} (hmod : t.toNat % 4096 = 0) (ht : t ≠ 0) (v : UInt64) :
    t + 8 * pdIdx v ≠ 0 := by
  intro h0
  have h8 : (8 : UInt64).toNat = 8 := rfl
  have hidx : (pdIdx v).toNat < 512 := UInt64.lt_iff_toNat_lt.mp (pdIdx_lt v)
  have hlt := t.toNat_lt
  have hpos : t.toNat ≠ 0 := fun h => ht (UInt64.toNat_inj.mp h)
  have hnat := congrArg UInt64.toNat h0
  rw [UInt64.toNat_add, UInt64.toNat_mul, h8, UInt64.toNat_zero] at hnat
  omega

theorem next_mod (e : UInt64) : ((e &&& ~~~0xFFF) + hhdmBase).toNat % 4096 = 0 := by
  rw [UInt64.toNat_add, Word.toNat_and_not_low (k := 12) e 0xFFF rfl, toNat_hhdmBase]
  omega

/-- The walk of `v` stops: the PML4 entry is empty, so the PDPT is taken to be at physical 0, and the word
found there reads as NULL once the direct-map base is added. -/
def Misses (s : State) (v : UInt64) : Prop :=
  s.load (s.kernelPml4 + 8 * pml4Idx v) = 0 ∧ (s.mem (8 * pdptIdx v) &&& ~~~0xFFF) + hhdmBase = 0

theorem mask_zero_add (j : UInt64) : (0 &&& ~~~0xFFF : UInt64) + 8 * j = 8 * j := by
  have hzero : (0 &&& ~~~0xFFF : UInt64) = 0 := by decide
  rw [hzero, UInt64.zero_add]

/-- The first step always follows the PML4 entry. -/
theorem nextTable_pml4 (h : TablesWellFormed s) (create : Bool) (v : UInt64) :
    nextTable s.kernelPml4 (pml4Idx v) create s =
      .ok ((s.load (s.kernelPml4 + 8 * pml4Idx v) &&& ~~~0xFFF) + hhdmBase, s) := by
  rw [nextTable]
  exact if_pos (add_hhdm_ne_zero (h.pml4 _ (pml4Idx_lt v)).low)

theorem walkPml4_second (h : TablesWellFormed s) (create : Bool) (v : UInt64) :
    walkPml4 s.kernelPml4 v create s =
      (nextTable ((s.load (s.kernelPml4 + 8 * pml4Idx v) &&& ~~~0xFFF) + hhdmBase) (pdptIdx v) create s
        >>= fun r => if r.1 = 0 then .ok (0, r.2) else .ok (r.1 + 8 * pdIdx v, r.2)) := by
  rw [walkPml4, nextTable_pml4 h, ok_bind]
  exact if_neg (add_hhdm_ne_zero (h.pml4 _ (pml4Idx_lt v)).low)

/-- The page-directory entry at which a walk that does not miss ends -/
def pdEntry (s : State) (v : UInt64) : UInt64 :=
  (s.mem ((s.load (s.kernelPml4 + 8 * pml4Idx v) &&& ~~~0xFFF) + 8 * pdptIdx v) &&& ~~~0xFFF) +
    hhdmBase + 8 * pdIdx v

/-- A walk that does not miss ends at an entry and changes nothing. -/
theorem walkPml4_found (h : TablesWellFormed s) (hv : ¬ Misses s v) (create : Bool) :
    pdEntry s v ≠ 0 ∧ walkPml4 s.kernelPml4 v create s = .ok (pdEntry s v, s) := by
  -- A present entry leads to an allocated table; an empty one to physical 0, where `Misses` looks.
  have hnext : (s.mem ((s.load (s.kernelPml4 + 8 * pml4Idx v) &&& ~~~0xFFF) + 8 * pdptIdx v) &&&
      ~~~0xFFF) + hhdmBase ≠ 0 := by
    rcases h.pml4 _ (pml4Idx_lt v) with h0 | ⟨hpresent, -⟩
    · intro hzero
      rw [h0, mask_zero_add] at hzero
      exact hv ⟨h0, hzero⟩
    · exact add_hhdm_ne_zero (h.pdpt _ (pml4Idx_lt v) hpresent _ (pdptIdx_lt v)).low
  refine ⟨entry_ne_zero (next_mod _) hnext v, ?_⟩
  rw [walkPml4_second h, nextTable, load_entry]
  rw [if_pos hnext, ok_bind]
  exact if_neg hnext

/-- A walk that misses asks for a page directory, and links it into page 0. -/
theorem walkPml4_missed (h : TablesWellFormed s) (hv : Misses s v) (create : Bool) :
    walkPml4 s.kernelPml4 v create s =
      if create then
        tableAlloc s >>= fun r =>
          if r.1 = 0 then .ok (0, r.2)
          else .ok (r.1 + 8 * pdIdx v, r.2.store (hhdmBase + 8 * pdptIdx v) (tableEntry (r.1 - hhdmBase)))
      else .ok (0, s) := by
  have hzero : (0 &&& ~~~0xFFF : UInt64) + hhdmBase = 0 + hhdmBase := by decide
  rw [walkPml4_second h, hv.1, hzero, nextTable, load_entry, UInt64.zero_add, UInt64.zero_add]
  show ((if _ ≠ 0 then _ else _ : Except Fault (UInt64 × State)) >>= _) = _
  rw [if_neg (not_not_intro hv.2)]
  -- Only a walk that may create goes on to the allocator.
  cases create with
  | false => rfl
  | true =>
    rw [if_pos rfl, if_pos rfl]
    cases tableAlloc s with
    | error e => rfl
    | ok r =>
      obtain ⟨fresh, t⟩ := r
      rw [ok_bind, ok_bind]
      dsimp only
      by_cases hfresh : fresh = 0
      · rw [if_pos hfresh, if_pos hfresh]
        rfl
      · rw [if_neg hfresh, if_neg hfresh, ok_bind]
        exact if_neg hfresh

/-! ## The two calls -/

theorem and_4095_eq_zero {a : UInt64} (h : a.toNat % 4096 = 0) : a &&& 4095 = 0 := by
  apply UInt64.toNat_inj.mp
  rw [Word.toNat_and_low (k := 12) a 4095 rfl]
  exact h

/-- A page of the lower half other than page 0 passes the guards. -/
theorem refusesVirtual_eq_false (hmod : v.toNat % 4096 = 0) (hlt : v.toNat < 2 ^ 47) (hv : v ≠ 0) :
    refusesVirtual v = false := by
  have hlow := and_4095_eq_zero hmod
  have hbelow : ¬ v ≥ hhdmBase := by
    rw [ge_iff_le, UInt64.le_iff_toNat_le, toNat_hhdmBase]
    omega
  simp only [refusesVirtual, hlow, Bool.or_eq_false_iff, beq_eq_false_iff_ne, bne_self_eq_false,
    decide_eq_false_iff_not]
  exact ⟨⟨hv, trivial⟩, hbelow⟩

/-- Unmapping is refused exactly when the walk misses. -/
theorem vmmUnmapUserPage_refused_iff (h : TablesWellFormed s) (hv : refusesVirtual v = false) :
    vmmUnmapUserPage v s = .ok (-1, s) ↔ Misses s v := by
  rw [vmmUnmapUserPage, hv, if_neg Bool.false_ne_true]
  constructor
  · intro hrefused
    by_contra hmiss
    obtain ⟨hne, hwalk⟩ := walkPml4_found h hmiss false
    rw [hwalk, ok_bind] at hrefused
    change (if pdEntry s v = 0 then _ else _) = _ at hrefused
    rw [if_neg hne] at hrefused
    have hcode : (0 : Int) = -1 := congrArg Prod.fst (Except.ok.inj hrefused)
    exact absurd hcode (by decide)
  · intro hmiss
    rw [walkPml4_missed h hmiss]
    rfl

/-- When the walk misses and a frame is left, mapping takes it for a page directory, stores the directory
in page 0 and the page in the directory. -/
theorem vmmMapUserPage_missed {f : Nat} (h : TablesWellFormed s) (hmiss : Misses s v)
    (hguards : ¬ (p = 0 ∨ p &&& 4095 ≠ 0 ∨ refusesVirtual v)) (hpos : 1 ≤ f) (hmax : f < pmmMaxFrames)
    (halloc : pmmAllocFrame s.pmm = .ok (frameAddress f, s.pmm.take f)) :
    vmmMapUserPage p v s = .ok (0, State.store (State.store { s with pmm := s.pmm.take f }
      (hhdmBase + 8 * pdptIdx v) (tableEntry (frameAddress f + hhdmBase - hhdmBase)))
      (frameAddress f + hhdmBase + 8 * pdIdx v) (p ||| PRESENT ||| WRITE ||| 4)) := by
  have hne : frameAddress f + hhdmBase ≠ 0 := add_hhdm_ne_zero (frameAddress_low hmax)
  have hmod : (frameAddress f + hhdmBase).toNat % 4096 = 0 := by
    have hf := frameAddress_mod hmax
    rw [UInt64.toNat_add, toNat_hhdmBase]
    omega
  rw [vmmMapUserPage, if_neg hguards, walkPml4_missed h hmiss, if_pos rfl, tableAlloc, halloc, ok_bind]
  dsimp only
  rw [if_neg (frameAddress_ne_zero hpos hmax), ok_bind, if_neg hne, ok_bind]
  exact if_neg (entry_ne_zero hmod hne v)

theorem vmmMapUserPage_guarded (hguards : p = 0 ∨ p &&& 4095 ≠ 0 ∨ refusesVirtual v) (s' : State) :
    vmmMapUserPage p v s ≠ .ok (0, s') := by
  intro hmap
  rw [vmmMapUserPage, if_pos hguards] at hmap
  have hcode : (-1 : Int) = 0 := congrArg Prod.fst (Except.ok.inj hmap)
  exact absurd hcode (by decide)

/-- When the walk misses and no frame is left, mapping is refused. -/
theorem vmmMapUserPage_full (h : TablesWellFormed s) (hmiss : Misses s v)
    (hfull : ∀ a q, pmmAllocFrame s.pmm = .ok (a, q) → a = 0) (s' : State) :
    vmmMapUserPage p v s ≠ .ok (0, s') := by
  by_cases hguards : p = 0 ∨ p &&& 4095 ≠ 0 ∨ refusesVirtual v
  · exact vmmMapUserPage_guarded hguards s'
  · intro hmap
    rw [vmmMapUserPage, if_neg hguards, walkPml4_missed h hmiss, if_pos rfl] at hmap
    obtain ⟨⟨pte, t⟩, hwalk, hrest⟩ := bind_eq_ok_iff.mp hmap
    obtain ⟨⟨fresh, u⟩, halloc, hwalk⟩ := bind_eq_ok_iff.mp hwalk
    obtain ⟨⟨phys, q⟩, hphys, hfresh⟩ := bind_eq_ok_iff.mp halloc
    -- `table_alloc` turns 0 into NULL, and the walk and the call pass it on.
    have hzero : fresh = 0 := by
      have hpair : (if phys = 0 then 0 else phys + hhdmBase) = fresh :=
        congrArg Prod.fst (Except.ok.inj hfresh)
      rw [hfull phys q hphys, if_pos rfl] at hpair
      exact hpair.symm
    rw [hzero] at hwalk
    have hpte : 0 = pte := congrArg Prod.fst (Except.ok.inj hwalk)
    rw [← hpte] at hrest
    have hcode : (-1 : Int) = 0 := congrArg Prod.fst (Except.ok.inj hrest)
    exact absurd hcode (by decide)

/-- Two calls that are both refused keep their promise. -/
theorem MapsExactly.of_refused (hmap : ∀ s', vmmMapUserPage p v s ≠ .ok (0, s'))
    (hunmap : vmmUnmapUserPage v s = .ok (-1, s)) : MapsExactly s p v where
  page := fun s' h => absurd h (hmap s')
  others := fun s' h => absurd h (hmap s')
  undone := fun s' h => absurd h (hmap s')
  absent := fun _ => hunmap

/-- An address of a table in another frame is not where an entry is stored. -/
theorem tableFrame_ne {k f : Nat} {i j : UInt64} (hk : k < pmmMaxFrames) (hf : f < pmmMaxFrames)
    (hkf : k ≠ f) (hi : i < 512) (hj : j < 512) :
    frameAddress k + 8 * i ≠ frameAddress f + 8 * j := by
  intro heq
  have hi' : i.toNat < 512 := UInt64.lt_iff_toNat_lt.mp hi
  have hj' : j.toNat < 512 := UInt64.lt_iff_toNat_lt.mp hj
  have hnat := congrArg UInt64.toNat heq
  rw [toNat_entryAddress hk rfl hi', toNat_entryAddress hf rfl hj'] at hnat
  omega

/-- An empty PML4 entry translates nothing. -/
theorem translation_none {k : Nat} (hk : k < pmmMaxFrames)
    (hroot : s.kernelPml4 = frameAddress k + hhdmBase)
    (hentry : s.mem (frameAddress k + 8 * pml4Idx v) = 0) : translation s v = none := by
  rw [translation, hroot, hhdm_cancel]
  apply Paging.translate_of_pml4
  rw [address_of_aligned (frameAddress_mod hk) (frameAddress_lt hk)]
  have hread : Paging.entry s.mem (frameAddress k) v 39 = 0 := hentry
  rw [hread]
  rfl

/-- After a mapping whose walk missed, the page has no translation: neither store is to the PML4. -/
theorem translation_of_missed {k f : Nat} (hk : TableFrame s k)
    (hroot : s.kernelPml4 = frameAddress k + hhdmBase)
    (hentry : s.mem (frameAddress k + 8 * pml4Idx v) = 0) (hf : f < pmmMaxFrames)
    (hfree : f ∉ s.pmm.used) (value value' : UInt64) :
    translation (State.store (State.store { s with pmm := s.pmm.take f }
      (hhdmBase + 8 * pdptIdx v) value) (frameAddress f + hhdmBase + 8 * pdIdx v) value') v = none := by
  have hkf : k ≠ f := fun h => hfree (h ▸ hk.marked)
  have hk0 : k ≠ 0 := Nat.ne_of_gt hk.pos
  -- The stores go to frame 0 and to the fresh frame; the PML4 is in neither.
  apply translation_none hk.lt
  · exact hroot
  · rw [store_mem_of_ne, store_mem_of_ne]
    · exact hentry
    · have hzero : hhdmBase + 8 * pdptIdx v - hhdmBase = frameAddress 0 + 8 * pdptIdx v := by
        rw [show frameAddress 0 = 0 from rfl]
        grind
      rw [hzero]
      exact tableFrame_ne hk.lt (by decide) hk0 (pml4Idx_lt v) (pdptIdx_lt v)
    · rw [hhdm_cancel_index]
      exact tableFrame_ne hk.lt hf hkf (pml4Idx_lt v) (pdIdx_lt v)

/-! ## When they keep their promise -/

/-- Both calls refuse page 0. -/
theorem mapsExactly_zero (s : State) (p : UInt64) : MapsExactly s p 0 :=
  MapsExactly.of_refused (vmmMapUserPage_guarded (Or.inr (Or.inr rfl))) (if_pos rfl)

/-- Where the walk misses, a frame that is handed out makes the mapping report success without a
translation. -/
theorem MapsExactly.no_frame (hexact : MapsExactly s p v) (h : TablesWellFormed s) (hmiss : Misses s v)
    (hguards : ¬ (p = 0 ∨ p &&& 4095 ≠ 0 ∨ refusesVirtual v)) {a : UInt64} {q : Pmm.State}
    (halloc : pmmAllocFrame s.pmm = .ok (a, q)) : a = 0 := by
  obtain ⟨k, hk, hroot⟩ := h.root
  rcases pmmAllocFrame_cases halloc with ⟨ha, -, -⟩ | ⟨f, hpos, -, hmax, hfree, -, rfl, rfl⟩
  · exact ha
  · have hmap := vmmMapUserPage_missed h hmiss hguards hpos hmax halloc
    obtain ⟨w, hw⟩ := hexact.page _ hmap 0 (by decide)
    have hentry : s.mem (frameAddress k + 8 * pml4Idx v) = 0 := by
      rw [← load_entry, ← hroot]
      exact hmiss.1
    rw [UInt64.add_zero, translation_of_missed hk hroot hentry hmax hfree] at hw
    cases hw

/-- **When mapping a user page is exact.** Over well-formed tables, for a page of the lower half that is
not mapped, the two calls do what they are for exactly on page 0, which both refuse, and where the walk
misses and `vmm_map_user_page` is refused as well: for physical page 0, or with no frame left. -/
theorem maps_exactly_iff (s : State) (p v : UInt64) (h : TablesWellFormed s)
    (hp : p.toNat % 4096 = 0) (hmod : v.toNat % 4096 = 0) (hlt : v.toNat < 2 ^ 47)
    (hnone : translation s v = none) :
    MapsExactly s p v ↔
      v = 0 ∨ Misses s v ∧ (p = 0 ∨ ∀ a q, pmmAllocFrame s.pmm = .ok (a, q) → a = 0) := by
  by_cases hv : v = 0
  · subst hv
    exact ⟨fun _ => Or.inl rfl, fun _ => mapsExactly_zero s p⟩
  have hpass := refusesVirtual_eq_false hmod hlt hv
  constructor
  · intro hexact
    have hmiss := (vmmUnmapUserPage_refused_iff h hpass).mp (hexact.absent hnone)
    refine Or.inr ⟨hmiss, ?_⟩
    by_cases hp0 : p = 0
    · exact Or.inl hp0
    · have hguards : ¬ (p = 0 ∨ p &&& 4095 ≠ 0 ∨ refusesVirtual v) := by
        rw [and_4095_eq_zero hp, hpass]
        simp only [hp0, ne_eq, not_true_eq_false, Bool.false_eq_true, or_self, not_false_eq_true]
      exact Or.inr fun a q halloc => hexact.no_frame h hmiss hguards halloc
  · rintro (h0 | ⟨hmiss, hrefused⟩)
    · exact absurd h0 hv
    · apply MapsExactly.of_refused _ ((vmmUnmapUserPage_refused_iff h hpass).mpr hmiss)
      rcases hrefused with hp0 | hfull
      · exact vmmMapUserPage_guarded (Or.inl hp0)
      · exact vmmMapUserPage_full h hmiss hfull

/-- A PML4 with no entries in frame 1, `total` frames, and the word `w` at physical address 0 -/
def rootOnly (total w : UInt64) : State :=
  { pmm := ({ Pmm.State.zero with totalFrames := total } : Pmm.State).take 1
    mem := fun a => if a = 0 then w else 0
    kernelPml4 := frameAddress 1 + hhdmBase
    mapped2mbPages := 0
    cr3 := frameAddress 1 }

theorem used_rootOnly (total w : UInt64) : (rootOnly total w).pmm.used = {1} := by
  have hzero : ({ Pmm.State.zero with totalFrames := total } : Pmm.State).used = ∅ :=
    Pmm.used_zero ▸ Pmm.used_congr rfl
  have htake := Pmm.used_take (s := { Pmm.State.zero with totalFrames := total }) (f := 1) (by decide)
  rw [hzero] at htake
  exact htake

theorem load_rootOnly (total w : UInt64) {i : UInt64} (hi : i < 512) :
    (rootOnly total w).load ((rootOnly total w).kernelPml4 + 8 * i) = 0 := by
  have hi' : i.toNat < 512 := UInt64.lt_iff_toNat_lt.mp hi
  have hne : frameAddress 1 + 8 * i ≠ 0 := by
    intro h0
    have hnat := congrArg UInt64.toNat h0
    rw [toNat_entryAddress (by decide) rfl hi', UInt64.toNat_zero] at hnat
    omega
  show (rootOnly total w).load (frameAddress 1 + hhdmBase + 8 * i) = 0
  rw [load_entry]
  exact if_neg hne

theorem tablesWellFormed_rootOnly (total w : UInt64) : TablesWellFormed (rootOnly total w) where
  root := by
    refine ⟨1, ⟨by decide, by decide, ?_⟩, rfl⟩
    rw [used_rootOnly]
    exact Finset.mem_singleton_self 1
  pml4 := fun i hi => Or.inl (load_rootOnly total w hi)
  pdpt := by
    intro i hi hpresent
    rw [load_rootOnly total w hi] at hpresent
    exact absurd hpresent (by decide)

theorem translation_rootOnly (total w v : UInt64) : translation (rootOnly total w) v = none := by
  apply translation_none (k := 1) (by decide) rfl
  rw [← load_entry]
  exact load_rootOnly total w (pml4Idx_lt v)

theorem maps_exactly_rootOnly :
    MapsExactly (rootOnly 2 0x800000000000) 0x200000 0x400000 ∧
      ¬ MapsExactly (rootOnly 512 0) 0x200000 0x400000 := by
  constructor
  · apply (maps_exactly_iff (rootOnly 2 0x800000000000) 0x200000 0x400000
      (tablesWellFormed_rootOnly _ _) rfl rfl (by decide) (translation_rootOnly _ _ _)).mpr
    refine Or.inr ⟨⟨load_rootOnly _ _ (pml4Idx_lt _), by decide⟩, Or.inr ?_⟩
    intro a q halloc
    -- frame 1 is the only one the allocator looks at
    rcases pmmAllocFrame_cases halloc with ⟨ha, -, -⟩ | ⟨f, hpos, hlt, -, hfree, -⟩
    · exact ha
    · have htotal : (rootOnly 2 0x800000000000).pmm.totalFrames.toNat = 2 := rfl
      have hf : f = 1 := by omega
      rw [used_rootOnly, hf] at hfree
      exact absurd (Finset.mem_singleton_self 1) hfree
  · intro hexact
    rcases (maps_exactly_iff (rootOnly 512 0) 0x200000 0x400000 (tablesWellFormed_rootOnly _ _)
      rfl rfl (by decide) (translation_rootOnly _ _ _)).mp hexact with hv | ⟨hmiss, -⟩
    · exact absurd hv (by decide)
    · exact absurd hmiss.2 (by decide)

/-- Under an empty PML4, unmapping `0x400000` reports success, and so does mapping it to `0x200000`, after
which it has no translation. -/
theorem map_without_translation :
    TablesWellFormed (rootOnly 512 0) ∧ translation (rootOnly 512 0) 0x400000 = none ∧
      (∃ s', vmmUnmapUserPage 0x400000 (rootOnly 512 0) = .ok (0, s')) ∧
      (∃ s', vmmMapUserPage 0x200000 0x400000 (rootOnly 512 0) = .ok (0, s') ∧
        translation s' 0x400000 = none) ∧
      ¬ MapsExactly (rootOnly 512 0) 0x200000 0x400000 := by
  have hwf := tablesWellFormed_rootOnly 512 0
  have hfound : ¬ Misses (rootOnly 512 0) 0x400000 := by
    intro hmiss
    exact absurd hmiss.2 (by decide)
  obtain ⟨hne, hwalk⟩ := walkPml4_found hwf hfound false
  obtain ⟨-, hwalk'⟩ := walkPml4_found hwf hfound true
  have hmap : vmmMapUserPage 0x200000 0x400000 (rootOnly 512 0) =
      .ok (0, (rootOnly 512 0).store (pdEntry (rootOnly 512 0) 0x400000)
        (0x200000 ||| PRESENT ||| WRITE ||| 4)) := by
    rw [vmmMapUserPage, if_neg (by decide), hwalk', ok_bind]
    exact if_neg hne
  have hlost : translation ((rootOnly 512 0).store (pdEntry (rootOnly 512 0) 0x400000)
      (0x200000 ||| PRESENT ||| WRITE ||| 4)) 0x400000 = none := by
    -- the entry that was stored is in page 0, the PML4 is in page 1
    have hentry : pdEntry (rootOnly 512 0) 0x400000 - hhdmBase = 16 := by
      rw [pdEntry, load_rootOnly _ _ (pml4Idx_lt _)]
      decide
    apply translation_none (k := 1) (by decide) rfl
    rw [store_mem_of_ne]
    · rw [← load_entry]
      exact load_rootOnly 512 0 (pml4Idx_lt _)
    · rw [hentry]
      decide
  refine ⟨hwf, translation_rootOnly _ _ _,
    ⟨(rootOnly 512 0).store (pdEntry (rootOnly 512 0) 0x400000) 0, ?_⟩, ⟨_, hmap, hlost⟩, ?_⟩
  · rw [vmmUnmapUserPage, if_neg (by decide), hwalk, ok_bind]
    exact if_neg hne
  · intro hexact
    obtain ⟨w, hw⟩ := hexact.page _ hmap 0 (by decide)
    rw [UInt64.add_zero, hlost] at hw
    cases hw

end MinOS.Vmm
