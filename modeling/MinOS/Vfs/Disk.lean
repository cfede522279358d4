/-
# MinOS.Vfs.Disk — eight sectors at a time.

`persist`, `vfs_init`, `vfs_read` and `vfs_write` all move eight consecutive sectors in a loop that
stops at the first failure. This file says what such a loop does to the medium, to the statics of the
driver and to the trace, for every script of the drive.
-/
import MinOS.Vfs.Table

namespace MinOS.Vfs

open MinOS.Ata

/-! ## Addresses -/

theorem toNat_lbaAdd (base : UInt32) (i : Fin 8) :
    (lbaAdd base i).toNat = (base.toNat + i) % 2 ^ 32 := by
  simp only [lbaAdd, UInt32.toNat_add, UInt32.toNat_ofNat']
  omega

theorem lbaAdd_inj {base : UInt32} {i j : Fin 8} (h : (lbaAdd base i).toNat = (lbaAdd base j).toNat) :
    i = j := by
  rw [toNat_lbaAdd, toNat_lbaAdd] at h
  have := base.toNat_lt
  omega

theorem toNat_lbaAdd_meta (i : Fin 8) : (lbaAdd vfsMetaLba i).toNat = 65024 + i := by
  rw [toNat_lbaAdd, show vfsMetaLba.toNat = 65024 from rfl]
  omega

theorem toNat_slotLba (n : Slot) : (slotLba n).toNat = 65032 + 8 * n := by
  simp only [slotLba, UInt32.toNat_add, UInt32.toNat_mul, UInt32.toNat_ofNat',
    show vfsDataLba.toNat = 65032 from rfl, show (8 : UInt32).toNat = 8 from rfl]
  omega

theorem toNat_lbaAdd_slot (n : Slot) (i : Fin 8) :
    (lbaAdd (slotLba n) i).toNat = 65032 + 8 * n + i := by
  rw [toNat_lbaAdd, toNat_slotLba]
  omega

/-- The data sectors of a slot are no metadata sectors. -/
theorem meta_ne_slot (n : Slot) (i j : Fin 8) :
    (lbaAdd vfsMetaLba i).toNat ≠ (lbaAdd (slotLba n) j).toNat := by
  rw [toNat_lbaAdd_meta, toNat_lbaAdd_slot]
  omega

/-- Different slots have different data sectors. -/
theorem slot_ne_slot {m n : Slot} (h : m ≠ n) (i j : Fin 8) :
    (lbaAdd (slotLba m) i).toNat ≠ (lbaAdd (slotLba n) j).toNat := by
  rw [toNat_lbaAdd_slot, toNat_lbaAdd_slot]
  have : m.val ≠ n.val := fun he => h (Fin.ext he)
  omega

/-! ## The write loop -/

section WriteLoop

variable (base : UInt32) (b : Block)

/-- The loop goes on after a write that returned 0 … -/
theorem writeSectors_cons_ok {i : Fin 8} {d : Drive} (is : List (Fin 8))
    (h : (ataWrite28 d (lbaAdd base i) (sectorOf b i)).1 = true) :
    writeSectors base b (i :: is) d
      = writeSectors base b is (ataWrite28 d (lbaAdd base i) (sectorOf b i)).2 := by
  rw [writeSectors]
  generalize ataWrite28 d (lbaAdd base i) (sectorOf b i) = x at h
  obtain ⟨ok, d'⟩ := x
  cases h
  rfl

/-- … and stops at one that did not. -/
theorem writeSectors_cons_fail {i : Fin 8} {d : Drive} (is : List (Fin 8))
    (h : (ataWrite28 d (lbaAdd base i) (sectorOf b i)).1 = false) :
    writeSectors base b (i :: is) d
      = (false, (ataWrite28 d (lbaAdd base i) (sectorOf b i)).2) := by
  rw [writeSectors]
  generalize ataWrite28 d (lbaAdd base i) (sectorOf b i) = x at h
  obtain ⟨ok, d'⟩ := x
  cases h
  rfl

/-- **Invariant rule.** What every write of the loop keeps, the loop keeps. -/
theorem writeSectors_preserves {P : Drive → Prop} (is : List (Fin 8))
    (hP : ∀ i ∈ is, ∀ d, P d → P (ataWrite28 d (lbaAdd base i) (sectorOf b i)).2) :
    ∀ d, P d → P (writeSectors base b is d).2 := by
  induction is with
  | nil => intro d hd; exact hd
  | cons i is ih =>
    intro d hd
    have hd' := hP i (by simp) d hd
    cases hok : (ataWrite28 d (lbaAdd base i) (sectorOf b i)).1 with
    | true =>
      rw [writeSectors_cons_ok base b is hok]
      exact ih (fun k hk => hP k (List.mem_cons_of_mem i hk)) _ hd'
    | false =>
      rw [writeSectors_cons_fail base b is hok]
      exact hd'

@[simp] theorem writeSectors_present (is : List (Fin 8)) (d : Drive) :
    (writeSectors base b is d).2.present = d.present := by
  apply writeSectors_preserves base b (P := fun e => e.present = d.present) is _ d rfl
  intro i _ e he
  rw [ataWrite28_present, he]

@[simp] theorem writeSectors_sectorCount (is : List (Fin 8)) (d : Drive) :
    (writeSectors base b is d).2.sectorCount = d.sectorCount := by
  apply writeSectors_preserves base b (P := fun e => e.sectorCount = d.sectorCount) is _ d rfl
  intro i _ e he
  rw [ataWrite28_sectorCount, he]

@[simp] theorem writeSectors_readScript (is : List (Fin 8)) (d : Drive) :
    (writeSectors base b is d).2.readScript = d.readScript := by
  apply writeSectors_preserves base b (P := fun e => e.readScript = d.readScript) is _ d rfl
  intro i _ e he
  rw [ataWrite28_readScript, he]

theorem writeSectors_writeScript_of_nil (is : List (Fin 8)) (d : Drive) (hs : d.writeScript = []) :
    (writeSectors base b is d).2.writeScript = [] := by
  apply writeSectors_preserves base b (P := fun e => e.writeScript = []) is _ d hs
  intro i _ e he
  exact ataWrite28_writeScript_of_nil e _ _ he

/-- Sectors the loop does not name keep their bytes. -/
theorem writeSectors_sectors_of_ne (is : List (Fin 8)) {n : Nat}
    (hn : ∀ i ∈ is, n ≠ (lbaAdd base i).toNat) (d : Drive) :
    (writeSectors base b is d).2.sectors n = d.sectors n := by
  apply writeSectors_preserves base b (P := fun e => e.sectors n = d.sectors n) is _ d rfl
  intro i hi e he
  rw [ataWrite28_sectors_of_ne e _ _ (hn i hi), he]

/-- A loop that returned 0 has stored every sector it names. -/
theorem writeSectors_sectors_of_ok (is : List (Fin 8)) (hnodup : is.Nodup) :
    ∀ d, (writeSectors base b is d).1 = true → ∀ i ∈ is,
      (writeSectors base b is d).2.sectors (lbaAdd base i).toNat = sectorOf b i := by
  induction is with
  | nil => intro d _ i hi; simp at hi
  | cons k is ih =>
    intro d hok i hi
    rw [List.nodup_cons] at hnodup
    cases hk : (ataWrite28 d (lbaAdd base k) (sectorOf b k)).1 with
    | false =>
      rw [writeSectors_cons_fail base b is hk] at hok
      cases hok
    | true =>
      rw [writeSectors_cons_ok base b is hk] at hok ⊢
      rcases List.mem_cons.mp hi with rfl | hi
      · -- no later write of the loop hits this sector again
        have hlater : ∀ j ∈ is, (lbaAdd base i).toNat ≠ (lbaAdd base j).toNat :=
          fun j hj he => hnodup.1 (lbaAdd_inj he ▸ hj)
        rw [writeSectors_sectors_of_ne base b is hlater, ataWrite28_sectors_of_ok _ _ _ hk,
          Function.update_self]
      · exact ih hnodup.2 _ hok i hi

/-- A loop that returned 0 found every address in range. -/
theorem ataTransferAccepts_of_writeSectors (is : List (Fin 8)) :
    ∀ d, (writeSectors base b is d).1 = true → ∀ i ∈ is,
      ataTransferAccepts d (lbaAdd base i) = true := by
  induction is with
  | nil => intro d _ i hi; simp at hi
  | cons k is ih =>
    intro d hok i hi
    cases hk : (ataWrite28 d (lbaAdd base k) (sectorOf b k)).1 with
    | false =>
      rw [writeSectors_cons_fail base b is hk] at hok
      cases hok
    | true =>
      rw [writeSectors_cons_ok base b is hk] at hok
      rcases List.mem_cons.mp hi with rfl | hi
      · exact (ataWrite28_eq_true d _ _ hk).1
      · rw [← ataTransferAccepts_congr (ataWrite28_present d _ _) (ataWrite28_sectorCount d _ _)]
        exact ih _ hok i hi

/-- How many of these sectors the drive stores, one after the other: it takes them until it refuses one, and
the last one may be stored and not confirmed. -/
def sectorsTaken (accepts : Fin 8 → Bool) : List (Fin 8) → List WriteOutcome → Nat
  | [], _ => 0
  | i :: is, script =>
    if accepts i then
      match script.headD .stored with
      | .stored => sectorsTaken accepts is script.tail + 1
      | .refused => 0
      | .unconfirmed => 1
    else 0

/-- **What the loop leaves on the medium**, wherever it stops -/
theorem writeSectors_sectors (accepts : Fin 8 → Bool) (is : List (Fin 8)) (hnodup : is.Nodup) :
    ∀ d, (∀ i, ataTransferAccepts d (lbaAdd base i) = accepts i) → ∀ j,
      (writeSectors base b is d).2.sectors (lbaAdd base j).toNat =
        if j ∈ is.take (sectorsTaken accepts is d.writeScript) then sectorOf b j
        else d.sectors (lbaAdd base j).toNat := by
  induction is with
  | nil => intro d _ j; simp [writeSectors]
  | cons i is ih =>
    intro d hacc j
    rw [List.nodup_cons] at hnodup
    have heq := ataWrite28_eq d (lbaAdd base i) (sectorOf b i)
    rw [hacc i] at heq
    have hne : j ≠ i → (lbaAdd base j).toNat ≠ (lbaAdd base i).toNat := fun hji he => hji (lbaAdd_inj he)
    have hacc' : ∀ k, ataTransferAccepts (ataWrite28 d (lbaAdd base i) (sectorOf b i)).2 (lbaAdd base k) = accepts k :=
      fun k => (ataTransferAccepts_congr (ataWrite28_present d _ _) (ataWrite28_sectorCount d _ _) _).trans (hacc k)
    rw [sectorsTaken]
    by_cases hi : accepts i = true
    · rw [if_pos hi]
      rw [hi] at heq
      unfold Drive.nextWrite at heq
      cases hnext : d.writeScript.headD .stored with
      | stored =>
        rw [hnext] at heq
        simp only [Bool.true_and, decide_true, if_true] at heq
        rw [writeSectors_cons_ok base b is (by rw [heq]), ih hnodup.2 _ hacc', heq]
        dsimp only
        rw [List.take_succ_cons]
        by_cases hji : j = i
        · subst hji
          have hout : j ∉ is.take (sectorsTaken accepts is d.writeScript.tail) :=
            fun hmem => hnodup.1 (List.mem_of_mem_take hmem)
          simp [hout]
        · simp [hji, Function.update_of_ne (hne hji)]
      | refused =>
        rw [hnext] at heq
        rw [writeSectors_cons_fail base b is (by rw [heq]; rfl), heq]
        simp
      | unconfirmed =>
        rw [hnext] at heq
        rw [writeSectors_cons_fail base b is (by rw [heq]; rfl), heq]
        by_cases hji : j = i
        · subst hji
          simp
        · simp [hji, Function.update_of_ne (hne hji)]
    · rw [if_neg hi]
      rw [Bool.not_eq_true] at hi
      rw [hi] at heq
      rw [writeSectors_cons_fail base b is (by rw [heq]; rfl), heq]
      simp

/-- What the loop adds to the trace: a prefix of its writes, all of them if it returned 0, and with a
failed one at the end otherwise. -/
theorem writeSectors_trace (is : List (Fin 8)) :
    ∀ d, ∃ tr, (writeSectors base b is d).2.trace = d.trace ++ tr ∧
      (∀ x ∈ tr, ∃ i ∈ is, ∃ ok, x = .write (lbaAdd base i) (sectorOf b i) ok) ∧
      ((writeSectors base b is d).1 = true →
        tr = is.map fun i => .write (lbaAdd base i) (sectorOf b i) true) ∧
      ((writeSectors base b is d).1 = false → ∃ x ∈ tr, x.ok = false) := by
  induction is with
  | nil => intro d; exact ⟨[], by simp [writeSectors]⟩
  | cons i is ih =>
    intro d
    have h := ataWrite28_trace d (lbaAdd base i) (sectorOf b i)
    -- A write that fails is the last entry; after one that succeeds the loop goes on.
    cases hk : (ataWrite28 d (lbaAdd base i) (sectorOf b i)).1 with
    | false =>
      rw [hk] at h
      rw [writeSectors_cons_fail base b is hk]
      refine ⟨[.write (lbaAdd base i) (sectorOf b i) false], h, ?_, by simp, ?_⟩
      · intro x hx
        rw [List.mem_singleton] at hx
        exact ⟨i, by simp, false, hx⟩
      · intro _
        exact ⟨_, List.mem_singleton_self _, rfl⟩
    | true =>
      rw [hk] at h
      rw [writeSectors_cons_ok base b is hk]
      obtain ⟨tr, htr, hmem, hok, hfail⟩ := ih (ataWrite28 d (lbaAdd base i) (sectorOf b i)).2
      refine ⟨.write (lbaAdd base i) (sectorOf b i) true :: tr, ?_, ?_, ?_, ?_⟩
      · rw [htr, h, List.append_assoc, List.singleton_append]
      · intro x hx
        rcases List.mem_cons.mp hx with rfl | hx
        · exact ⟨i, by simp, true, rfl⟩
        · obtain ⟨k, hk, ok, rfl⟩ := hmem x hx
          exact ⟨k, List.mem_cons_of_mem i hk, ok, rfl⟩
      · intro ht
        rw [List.map_cons, hok ht]
      · intro hf
        obtain ⟨x, hx, hxf⟩ := hfail hf
        exact ⟨x, List.mem_cons_of_mem _ hx, hxf⟩

/-- On a working drive the loop succeeds. -/
theorem writeSectors_of_nil (is : List (Fin 8)) :
    ∀ d, d.writeScript = [] → (∀ i ∈ is, ataTransferAccepts d (lbaAdd base i) = true) →
      (writeSectors base b is d).1 = true := by
  induction is with
  | nil => intro d _ _; rfl
  | cons i is ih =>
    intro d hs hacc
    rw [writeSectors_cons_ok base b is (ataWrite28_of_nil d _ _ hs (hacc i (by simp)))]
    apply ih
    · exact ataWrite28_writeScript_of_nil d _ _ hs
    · intro k hk
      rw [ataTransferAccepts_congr (ataWrite28_present d _ _) (ataWrite28_sectorCount d _ _)]
      exact hacc k (List.mem_cons_of_mem i hk)

end WriteLoop

/-! ## The read loop -/

section ReadLoop

variable (base : UInt32)

/-- The loop stores a sector it has read and goes on … -/
theorem readSectors_cons_some {i : Fin 8} {d : Drive} {sec : Sector} (is : List (Fin 8)) (b : Block)
    (h : (ataRead28 d (lbaAdd base i)).1 = some sec) :
    readSectors base (i :: is) b d
      = readSectors base is (setSector b i sec) (ataRead28 d (lbaAdd base i)).2 := by
  rw [readSectors]
  generalize ataRead28 d (lbaAdd base i) = x at h
  obtain ⟨r, d'⟩ := x
  cases h
  rfl

/-- … and stops at a read that failed. -/
theorem readSectors_cons_none {i : Fin 8} {d : Drive} (is : List (Fin 8)) (b : Block)
    (h : (ataRead28 d (lbaAdd base i)).1 = none) :
    readSectors base (i :: is) b d = (false, b, (ataRead28 d (lbaAdd base i)).2) := by
  rw [readSectors]
  generalize ataRead28 d (lbaAdd base i) = x at h
  obtain ⟨r, d'⟩ := x
  cases h
  rfl

/-- **Invariant rule.** What every read keeps, the loop keeps. -/
theorem readSectors_preserves {P : Drive → Prop} (hP : ∀ d lba, P d → P (ataRead28 d lba).2)
    (is : List (Fin 8)) : ∀ b d, P d → P (readSectors base is b d).2.2 := by
  induction is with
  | nil => intro b d hd; exact hd
  | cons i is ih =>
    intro b d hd
    have hd' := hP d (lbaAdd base i) hd
    cases hr : (ataRead28 d (lbaAdd base i)).1 with
    | none =>
      rw [readSectors_cons_none base is b hr]
      exact hd'
    | some sec =>
      rw [readSectors_cons_some base is b hr]
      exact ih _ _ hd'

/-- The loop reads; nothing on the medium, none of the statics and no later write changes. -/
theorem readSectors_frame (is : List (Fin 8)) (b : Block) (d : Drive) :
    (readSectors base is b d).2.2.present = d.present ∧
    (readSectors base is b d).2.2.sectorCount = d.sectorCount ∧
    (readSectors base is b d).2.2.sectors = d.sectors ∧
    (readSectors base is b d).2.2.writeScript = d.writeScript := by
  apply readSectors_preserves base (P := fun e => e.present = d.present ∧
    e.sectorCount = d.sectorCount ∧ e.sectors = d.sectors ∧ e.writeScript = d.writeScript) _ is b d
    ⟨rfl, rfl, rfl, rfl⟩
  intro e lba he
  rw [ataRead28_present, ataRead28_sectorCount, ataRead28_sectors, ataRead28_writeScript]
  exact he

theorem readSectors_readScript_of_nil (is : List (Fin 8)) (b : Block) (d : Drive)
    (hs : d.readScript = []) : (readSectors base is b d).2.2.readScript = [] := by
  apply readSectors_preserves base (P := fun e => e.readScript = []) _ is b d hs
  intro e lba he
  exact ataRead28_readScript_of_nil e lba he

/-- What the loop adds to the trace: a prefix of its reads, all of them if it returned 0. -/
theorem readSectors_trace (is : List (Fin 8)) : ∀ b d,
    ∃ tr, (readSectors base is b d).2.2.trace = d.trace ++ tr ∧
      (∀ x ∈ tr, ∃ i ∈ is, ∃ ok, x = .read (lbaAdd base i) ok) ∧
      ((readSectors base is b d).1 = true → tr = is.map fun i => .read (lbaAdd base i) true) := by
  induction is with
  | nil => intro b d; exact ⟨[], by simp [readSectors]⟩
  | cons i is ih =>
    intro b d
    have h := ataRead28_trace d (lbaAdd base i)
    cases hr : (ataRead28 d (lbaAdd base i)).1 with
    | none =>
      rw [hr] at h
      rw [readSectors_cons_none base is b hr]
      refine ⟨[.read (lbaAdd base i) false], h, ?_, by simp⟩
      intro x hx
      rw [List.mem_singleton] at hx
      exact ⟨i, by simp, false, hx⟩
    | some sec =>
      rw [hr] at h
      rw [readSectors_cons_some base is b hr]
      obtain ⟨tr, htr, hmem, hok⟩ := ih (setSector b i sec) (ataRead28 d (lbaAdd base i)).2
      refine ⟨.read (lbaAdd base i) true :: tr, ?_, ?_, ?_⟩
      · rw [htr, h, List.append_assoc, List.singleton_append]
        rfl
      · intro x hx
        rcases List.mem_cons.mp hx with rfl | hx
        · exact ⟨i, by simp, true, rfl⟩
        · obtain ⟨k, hk, ok, rfl⟩ := hmem x hx
          exact ⟨k, List.mem_cons_of_mem i hk, ok, rfl⟩
      · intro ht
        rw [List.map_cons, hok ht]

/-- A loop that returned 0 has every byte of the sectors it names, and has left the others. -/
theorem readSectors_block_of_ok (is : List (Fin 8)) (hnodup : is.Nodup) : ∀ b d,
    (readSectors base is b d).1 = true → ∀ (k : Fin 4096) (i : Fin 8), k.val / 512 = i →
      (readSectors base is b d).2.1 k =
        if i ∈ is then d.sectors (lbaAdd base i).toNat ⟨k % 512, mod_lt_512 k⟩
        else b k := by
  induction is with
  | nil => intro b d _ k i _; simp [readSectors]
  | cons m is ih =>
    intro b d hok k i hki
    rw [List.nodup_cons] at hnodup
    cases hr : (ataRead28 d (lbaAdd base m)).1 with
    | none =>
      rw [readSectors_cons_none base is b hr] at hok
      cases hok
    | some sec =>
      rw [readSectors_cons_some base is b hr] at hok ⊢
      obtain rfl := ataRead28_eq_some d _ sec hr
      rw [ih hnodup.2 _ _ hok k i hki, ataRead28_sectors]
      by_cases him : i = m
      · subst him
        rw [if_neg hnodup.1, if_pos (by simp), setSector, if_pos hki]
      · have : ¬ k.val / 512 = m := fun he => him (Fin.ext (hki.symm.trans he))
        simp [him, setSector, this]

/-- In range, the loop succeeds exactly if none of its reads times out. -/
theorem readSectors_ok (is : List (Fin 8)) : ∀ b d,
    (∀ i ∈ is, ataTransferAccepts d (lbaAdd base i) = true) →
    (readSectors base is b d).1 = (d.readScript.take is.length).all (! ·) := by
  induction is with
  | nil => intro b d _; simp [readSectors]
  | cons i is ih =>
    intro b d hacc
    have hi := hacc i (by simp)
    have hsome := ataRead28_isSome d (lbaAdd base i)
    rw [hi, Bool.true_and] at hsome
    have htake : (d.readScript.take (i :: is).length).all (! ·)
        = (!d.readScript.headD false && (d.readScript.tail.take is.length).all (! ·)) := by
      cases d.readScript <;> simp
    rw [htake, ← hsome]
    cases hr : (ataRead28 d (lbaAdd base i)).1 with
    | none =>
      rw [readSectors_cons_none base is b hr]
      rfl
    | some sec =>
      rw [readSectors_cons_some base is b hr, ih _ _ fun k hk => ?_, ataRead28_readScript d _ hi]
      · rfl
      · rw [ataTransferAccepts_congr (ataRead28_present d _) (ataRead28_sectorCount d _)]
        exact hacc k (List.mem_cons_of_mem i hk)

/-- A loop that returned 0 found every address in range. -/
theorem ataTransferAccepts_of_readSectors (is : List (Fin 8)) : ∀ b d,
    (readSectors base is b d).1 = true → ∀ i ∈ is, ataTransferAccepts d (lbaAdd base i) = true := by
  induction is with
  | nil => intro b d _ i hi; simp at hi
  | cons k is ih =>
    intro b d hok i hi
    cases hr : (ataRead28 d (lbaAdd base k)).1 with
    | none =>
      rw [readSectors_cons_none base is b hr] at hok
      cases hok
    | some sec =>
      rw [readSectors_cons_some base is b hr] at hok
      rcases List.mem_cons.mp hi with rfl | hi
      · have hboth := ataRead28_isSome d (lbaAdd base i)
        rw [hr, Option.isSome_some, eq_comm, Bool.and_eq_true] at hboth
        exact hboth.1
      · rw [← ataTransferAccepts_congr (ataRead28_present d _) (ataRead28_sectorCount d _)]
        exact ih _ _ hok i hi

end ReadLoop

end MinOS.Vfs
