/-
# MinOS.Pmm.Runs — the frame allocator over whole runs.

A run starts from the state `pmm_init` left and makes calls of `pmm_alloc_frame`, `pmm_alloc_frames` and
`pmm_free_frame`. A ledger beside the state, a history variable, keeps the frames ever returned and the
frames currently owned. Which addresses may be freed is a parameter of the run: any, a frame once
returned, or a frame owned.

Two invariants carry everything. `Grounded`: the frames marked at boot stay marked, and a frame was
returned only if it lies between 1 and `total_frames` and was not marked at boot. `Settled`, when
only owned frames are freed: the marked frames are exactly those of boot and the owned ones.
-/
import MinOS.Pmm.Init

namespace MinOS.Pmm

open MinOS.Boot

/-! ## Runs -/

/-- The callers' side: frames owned now, and frames ever returned -/
structure Ledger where
  owned : Finset Nat
  returned : Finset Nat

def Ledger.empty : Ledger := ⟨∅, ∅⟩

/-- The frames of an allocation of `n` frames that returned the address `a` -/
def grantedFrames (a : UInt64) (n : Nat) : Finset Nat :=
  if a = 0 then ∅ else Finset.Ico (a / 4096).toNat ((a / 4096).toNat + n)

/-- An allocation of `n` frames returned `a`. -/
def Ledger.grant (l : Ledger) (a : UInt64) (n : Nat) : Ledger :=
  ⟨l.owned ∪ grantedFrames a n, l.returned ∪ grantedFrames a n⟩

/-- The frame at `a` was freed. -/
def Ledger.release (l : Ledger) (a : UInt64) : Ledger :=
  { l with owned := l.owned.erase (a / 4096).toNat }

/-- One call, with the ledger -/
inductive Step (mayFree : Ledger → UInt64 → Prop) : State → Ledger → State → Ledger → Prop
  | allocFrame {s s' l a} (h : pmmAllocFrame s = .ok (a, s')) : Step mayFree s l s' (l.grant a 1)
  | allocFrames {s s' l a} (count : UInt32) (h : pmmAllocFrames count s = .ok (a, s')) :
      Step mayFree s l s' (l.grant a count.toNat)
  | freeFrame {s s' l a} (hmay : mayFree l a) (h : pmmFreeFrame a s = .ok s') :
      Step mayFree s l s' (l.release a)

/-- The states and ledgers reached from `s₀` -/
inductive Run (mayFree : Ledger → UInt64 → Prop) (s₀ : State) : State → Ledger → Prop
  | start : Run mayFree s₀ s₀ Ledger.empty
  | step {s s' l l'} (h : Run mayFree s₀ s l) (hstep : Step mayFree s l s' l') : Run mayFree s₀ s' l'

/-- Any address may be freed. -/
def anyAddress : Ledger → UInt64 → Prop := fun _ _ => True

/-- A frame once returned may be freed, again and again. -/
def onceReturned (l : Ledger) (a : UInt64) : Prop := ∃ f ∈ l.returned, a = frameAddress f

/-- A frame owned now may be freed. -/
def currentlyOwned (l : Ledger) (a : UInt64) : Prop := ∃ f ∈ l.owned, a = frameAddress f

/-- A call allocates or frees. -/
theorem Step.cases {mayFree : Ledger → UInt64 → Prop} {s s' : State} {l l' : Ledger}
    (h : Step mayFree s l s' l') :
    (∃ a n, Grant s n a s' ∧ l' = l.grant a n) ∨
      ∃ a, mayFree l a ∧ pmmFreeFrame a s = .ok s' ∧ l' = l.release a := by
  cases h with
  | allocFrame h => exact Or.inl ⟨_, 1, pmmAllocFrame_grant h, rfl⟩
  | allocFrames count h => exact Or.inl ⟨_, count.toNat, pmmAllocFrames_grant h, rfl⟩
  | freeFrame hmay h => exact Or.inr ⟨_, hmay, h, rfl⟩

theorem grantedFrames_zero (n : Nat) : grantedFrames 0 n = ∅ := if_pos rfl

theorem grantedFrames_frameAddress {f n : Nat} (hpos : 1 ≤ f) (hf : f < pmmMaxFrames) :
    grantedFrames (frameAddress f) n = Finset.Ico f (f + n) := by
  rw [grantedFrames, if_neg (frameAddress_ne_zero hpos hf), toNat_frameAddress_div hf]

/-- A grant marks frames between 1 and `total_frames` that were not marked, and changes nothing else. -/
theorem Grant.spec {s s' : State} {n : Nat} {a : UInt64} (h : Grant s n a s') :
    Takes s s' (grantedFrames a n) ∧ ∀ f ∈ grantedFrames a n,
      1 ≤ f ∧ f < s.totalFrames.toNat ∧ f < pmmMaxFrames ∧ f ∉ s.used := by
  cases h with
  | refused =>
    rw [grantedFrames_zero]
    exact ⟨Takes.refl s, fun f hf => absurd hf (Finset.notMem_empty f)⟩
  | @granted f _ hn hpos htotal hmax hfree htakes =>
    rw [grantedFrames_frameAddress hpos (by omega)]
    refine ⟨htakes, fun g hg => ?_⟩
    rw [Finset.mem_Ico] at hg
    exact ⟨by omega, by omega, by omega, hfree g hg.1 hg.2⟩

/-! ## What every run keeps -/

/-- The frames marked at boot stay marked; a frame was returned only if it lies between 1 and
`total_frames` and was not marked at boot. -/
structure Grounded (s₀ s : State) (l : Ledger) : Prop where
  totalFrames : s.totalFrames = s₀.totalFrames
  marked : s₀.used ⊆ s.used
  returned : ∀ f ∈ l.returned,
    1 ≤ f ∧ f < s₀.totalFrames.toNat ∧ f < pmmMaxFrames ∧ f ∉ s₀.used
  owned : l.owned ⊆ l.returned

theorem Grounded.start (s₀ : State) : Grounded s₀ s₀ Ledger.empty :=
  ⟨rfl, Finset.Subset.refl _, fun f hf => absurd hf (Finset.notMem_empty f), Finset.Subset.refl _⟩

theorem Grounded.grant {s₀ s s' : State} {l : Ledger} {a : UInt64} {n : Nat} (h : Grounded s₀ s l)
    (hgrant : Grant s n a s') : Grounded s₀ s' (l.grant a n) := by
  obtain ⟨htakes, hfresh⟩ := hgrant.spec
  refine ⟨htakes.totalFrames.trans h.totalFrames, ?_, ?_, ?_⟩
  · rw [htakes.used]
    exact h.marked.trans Finset.subset_union_left
  · intro f hf
    rcases Finset.mem_union.mp hf with hf | hf
    · exact h.returned f hf
    · obtain ⟨hpos, htotal, hmax, hfree⟩ := hfresh f hf
      rw [h.totalFrames] at htotal
      exact ⟨hpos, htotal, hmax, fun hused => hfree (h.marked hused)⟩
  · exact Finset.union_subset_union_left h.owned

/-- Freeing a frame that was once returned unmarks it at most. -/
theorem Grounded.free {s₀ s s' : State} {l : Ledger} {f : Nat} (h : Grounded s₀ s l)
    (hf : f ∈ l.returned) (hfree : pmmFreeFrame (frameAddress f) s = .ok s') :
    Grounded s₀ s' (l.release (frameAddress f)) := by
  obtain ⟨hpos, -, hmax, hnot⟩ := h.returned f hf
  rw [pmmFreeFrame_eq hpos hmax] at hfree
  obtain rfl := Except.ok.inj hfree
  have howned : (l.release (frameAddress f)).owned ⊆ l.returned :=
    (Finset.erase_subset _ _).trans h.owned
  split
  · refine ⟨h.totalFrames, ?_, h.returned, howned⟩
    rw [used_give]
    intro g hg
    refine Finset.mem_erase.mpr ⟨?_, h.marked hg⟩
    rintro rfl
    exact hnot hg
  · exact ⟨h.totalFrames, h.marked, h.returned, howned⟩

theorem Run.grounded {mayFree : Ledger → UInt64 → Prop} {s₀ s : State} {l : Ledger}
    (hmay : ∀ l a, l.owned ⊆ l.returned → mayFree l a → onceReturned l a) (h : Run mayFree s₀ s l) :
    Grounded s₀ s l := by
  induction h with
  | start => exact Grounded.start s₀
  | step _ hstep ih =>
    rcases hstep.cases with ⟨a, n, hgrant, rfl⟩ | ⟨a, ha, hfree, rfl⟩
    · exact ih.grant hgrant
    · obtain ⟨f, hf, rfl⟩ := hmay _ a ih.owned ha
      exact ih.free hf hfree

theorem onceReturned_of_currentlyOwned (l : Ledger) (a : UInt64) (hsub : l.owned ⊆ l.returned)
    (h : currentlyOwned l a) : onceReturned l a := by
  obtain ⟨f, hf, rfl⟩ := h
  exact ⟨f, hsub hf, rfl⟩

/-- The marked frames are those of boot and the owned ones, and no frame is both. -/
structure Settled (s₀ s : State) (l : Ledger) : Prop where
  used : s.used = s₀.used ∪ l.owned
  disjoint : Disjoint s₀.used l.owned
  balance : s.balance = s₀.balance

theorem Run.settled {s₀ s : State} {l : Ledger} (h : Run currentlyOwned s₀ s l) :
    Settled s₀ s l := by
  induction h with
  | start => exact ⟨by simp [Ledger.empty], by simp [Ledger.empty], rfl⟩
  | @step s s' l l' hrun hstep ih =>
    have hground := Run.grounded onceReturned_of_currentlyOwned hrun
    rcases hstep.cases with ⟨a, n, hgrant, rfl⟩ | ⟨a, ⟨f, hf, rfl⟩, hfree, rfl⟩
    · obtain ⟨htakes, hfresh⟩ := hgrant.spec
      refine ⟨?_, ?_, htakes.balance.trans ih.balance⟩
      · rw [htakes.used, ih.used, Finset.union_assoc]
        rfl
      · refine Finset.disjoint_union_right.mpr ⟨ih.disjoint, ?_⟩
        rw [Finset.disjoint_right]
        exact fun g hg hused => (hfresh g hg).2.2.2 (hground.marked hused)
    · -- The frame is owned, hence marked and below `total_frames`: the call does give it back.
      obtain ⟨hpos, htotal, hmax, hnot⟩ := hground.returned f (hground.owned hf)
      have hused : f ∈ s.used := by
        rw [ih.used]
        exact Finset.mem_union_right _ hf
      rw [pmmFreeFrame_eq hpos hmax, if_pos ⟨hground.totalFrames ▸ htotal, hused⟩] at hfree
      obtain rfl := Except.ok.inj hfree
      refine ⟨?_, ?_, (balance_give hused).trans ih.balance⟩
      · rw [used_give, ih.used, Finset.erase_union_distrib, Finset.erase_eq_of_notMem hnot,
          Ledger.release, toNat_frameAddress_div hmax]
      · exact ih.disjoint.mono_right (Finset.erase_subset _ _)

/-! ## Runs do not fault, and every free frame is handed out in some run -/

/-- Whatever is freed, `total_frames` stays. -/
theorem Run.totalFrames {mayFree : Ledger → UInt64 → Prop} {s₀ s : State} {l : Ledger}
    (h : Run mayFree s₀ s l) : s.totalFrames = s₀.totalFrames := by
  induction h with
  | start => rfl
  | step _ hstep ih =>
    rcases hstep.cases with ⟨a, n, hgrant, -⟩ | ⟨a, -, hfree, -⟩
    · exact hgrant.spec.1.totalFrames.trans ih
    · exact (pmmFreeFrame_totalFrames hfree).trans ih

/-- Every call the callers may make next returns. -/
structure NoFaultNext (s : State) : Prop where
  allocFrame : ∃ a s', pmmAllocFrame s = .ok (a, s')
  allocFrames : ∀ count, ∃ a s', pmmAllocFrames count s = .ok (a, s')
  freeFrame : ∀ frame, ∃ s', pmmFreeFrame frame s = .ok s'
  isAvailable : ∀ frame, ∃ r, pmmIsAvailable frame s = .ok r

theorem noFaultNext {s : State} (h : s.totalFrames.toNat ≤ pmmMaxFrames) : NoFaultNext s where
  allocFrame := pmmAllocFrame_runs h
  allocFrames count := pmmAllocFrames_runs count h
  freeFrame frame := by
    obtain ⟨s', hs', -⟩ := pmmFreeFrame_runs frame h
    exact ⟨s', hs'⟩
  isAvailable frame := pmmIsAvailable_runs frame h

theorem Run.noFaultNext {mayFree : Ledger → UInt64 → Prop} {s₀ s : State} {l : Ledger}
    (h₀ : s₀.totalFrames.toNat ≤ pmmMaxFrames) (h : Run mayFree s₀ s l) : NoFaultNext s :=
  MinOS.Pmm.noFaultNext (by rw [h.totalFrames]; exact h₀)

/-- Calling `pmm_alloc_frame` again and again marks all frames below `k` before `f`. -/
theorem Run.fill (mayFree : Ledger → UInt64 → Prop) {s₀ : State} {f : Nat}
    (hmax : f < pmmMaxFrames) (hlt : f < s₀.totalFrames.toNat) (hfree : f ∉ s₀.used) :
    ∀ k, k ≤ f → ∃ s l, Run mayFree s₀ s l ∧ (∀ g, 1 ≤ g → g < k → g ∈ s.used) ∧ f ∉ s.used := by
  intro k
  induction k with
  | zero =>
    intro _
    exact ⟨s₀, Ledger.empty, .start, fun g _ hg => absurd hg (Nat.not_lt_zero g), hfree⟩
  | succ k ih =>
    intro hk
    obtain ⟨s, l, hrun, hbelow, hf⟩ := ih (by omega)
    by_cases hdone : k = 0 ∨ k ∈ s.used
    · refine ⟨s, l, hrun, fun g hpos hg => ?_, hf⟩
      rcases Nat.eq_or_lt_of_le (Nat.le_of_lt_succ hg) with rfl | hg
      · exact hdone.resolve_left (by omega)
      · exact hbelow g hpos hg
    · obtain ⟨hk0, hkfree⟩ := not_or.mp hdone
      have htotal := hrun.totalFrames
      obtain ⟨a, s', hs'⟩ := pmmAllocFrame_runs_of_free (by omega) (by rw [htotal]; exact hlt) hmax hf
      -- Everything below `k` is marked, so first fit grants `k` itself.
      obtain ⟨-, hmax, rfl⟩ := pmmAllocFrame_lowest hs' (by omega) (by rw [htotal]; omega) hkfree hbelow
      refine ⟨s.take k, _, hrun.step (.allocFrame hs'), ?_⟩
      rw [used_take hmax]
      refine ⟨fun h hhpos hh => ?_, ?_⟩
      · rcases Nat.eq_or_lt_of_le (Nat.le_of_lt_succ hh) with rfl | hh
        · exact Finset.mem_insert_self _ _
        · exact Finset.mem_insert_of_mem (hbelow h hhpos hh)
      · rw [Finset.mem_insert, not_or]
        exact ⟨by omega, hf⟩

/-- **Completeness.** Every frame of the bitmap between 1 and `total_frames` that the start left unmarked
is handed out by some run. -/
theorem Run.reaches (mayFree : Ledger → UInt64 → Prop) {s₀ : State} {f : Nat}
    (hmax : f < pmmMaxFrames) (hpos : 1 ≤ f) (hlt : f < s₀.totalFrames.toNat)
    (hfree : f ∉ s₀.used) : ∃ s l, Run mayFree s₀ s l ∧ f ∈ l.owned ∧ f ∈ l.returned := by
  obtain ⟨s, l, hrun, hbelow, hf⟩ := Run.fill mayFree hmax hlt hfree f (le_refl f)
  have hlt' : f < s.totalFrames.toNat := by
    rw [hrun.totalFrames]
    exact hlt
  obtain ⟨a, s', hs'⟩ := pmmAllocFrame_runs_of_free hpos hlt' hmax hf
  obtain ⟨rfl, -, -⟩ := pmmAllocFrame_lowest hs' hpos hlt' hf hbelow
  have hmem : f ∈ grantedFrames (frameAddress f) 1 := by
    rw [grantedFrames_frameAddress hpos hmax, Finset.mem_Ico]
    omega
  exact ⟨s', _, hrun.step (.allocFrame hs'), Finset.mem_union_right _ hmem,
    Finset.mem_union_right _ hmem⟩

end MinOS.Pmm
