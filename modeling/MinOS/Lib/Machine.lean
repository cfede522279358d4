/-
# MinOS.Lib.Machine — runs of a step function that can fault.

A component is modelled by `step : σ → α → Except φ (ρ × σ)`: in state `s`, the call `a` either
faults (leaves the defined behaviour of the language it is written in) or returns a reply and a new
state. This file holds what every such model shares: counted loops with their invariant rules, runs
over a list of calls, the rule that a step-by-step simulation of a total reference machine is a
simulation of whole runs, and the rule that states no single call can tell apart give the same replies
to whole runs.
-/
import Mathlib.Data.List.Basic

namespace Machine

universe u

variable {σ τ α ρ : Type u} {φ : Type*}

/-! ## Computations that can fault -/

@[simp] theorem ok_bind {β : Type u} (a : α) (f : α → Except φ β) : (Except.ok a >>= f) = f a := rfl

/-- A sequence of two computations that returned did so in both. -/
theorem bind_eq_ok_iff {β : Type u} {x : Except φ α} {f : α → Except φ β} {b : β} :
    x >>= f = .ok b ↔ ∃ a, x = .ok a ∧ f a = .ok b := by
  cases x with
  | error e => simp [bind, Except.bind]
  | ok a => simp

/-- A loop over a list whose body returns for every element -/
theorem mapM_eq_ok {β : Type u} {f : α → Except φ β} {g : α → β} {l : List α} (h : ∀ a ∈ l, f a = .ok (g a)) :
    l.mapM f = .ok (l.map g) := by
  induction l with
  | nil => rfl
  | cons a l ih =>
    rw [List.mapM_cons, h a List.mem_cons_self, ih fun b hb => h b (List.mem_cons_of_mem a hb)]
    rfl

/-- If the computation returns, what it returns has this property. -/
def Yields (P : α → Prop) (x : Except φ α) : Prop := ∀ a, x = .ok a → P a

theorem yields_ok {P : α → Prop} {a : α} (h : P a) : Yields P (.ok a : Except φ α) := by
  intro a' heq
  exact Except.ok.inj heq ▸ h

theorem yields_bind {β : Type u} {P : α → Prop} {Q : β → Prop} {x : Except φ α} {f : α → Except φ β}
    (hx : Yields P x) (hf : ∀ a, P a → Yields Q (f a)) : Yields Q (x >>= f) := by
  intro b heq
  obtain ⟨a, ha, hb⟩ := bind_eq_ok_iff.mp heq
  exact hf a (hx a ha) b hb

/-- Nothing is known of the first result. -/
theorem yields_of_bind {β : Type u} {Q : β → Prop} {x : Except φ α} {f : α → Except φ β}
    (hf : ∀ a, Yields Q (f a)) : Yields Q (x >>= f) :=
  yields_bind (P := fun _ => True) (fun _ _ => trivial) fun a _ => hf a

theorem yields_mapM {β : Type u} {P : β → Prop} {f : α → Except φ β} {l : List α} (h : ∀ a, Yields P (f a)) :
    Yields (fun bs => ∀ b ∈ bs, P b) (l.mapM f) := by
  induction l with
  | nil => exact yields_ok fun b hb => absurd hb List.not_mem_nil
  | cons a l ih =>
    rw [List.mapM_cons]
    refine yields_bind (h a) fun b hb => yields_bind ih fun bs hbs => ?_
    exact yields_ok (List.forall_mem_cons.mpr ⟨hb, hbs⟩)

/-! ## Counted loops -/

/-- `for (i = first; i < first + count; ++i) body(i)`, left at the first fault -/
def forRange (body : Nat → σ → Except φ σ) : Nat → Nat → σ → Except φ σ
  | 0, _, s => .ok s
  | count + 1, first, s => do
    let s' ← body first s
    forRange body count (first + 1) s'

/-- **Total loop rule.** A body that runs at every index and carries `P` to the next one makes the loop
run to its end, where `P` holds. -/
theorem forRange_runs (body : Nat → σ → Except φ σ) (P : Nat → σ → Prop) (last : Nat)
    (hbody : ∀ i s, i < last → P i s → ∃ s', body i s = .ok s' ∧ P (i + 1) s') :
    ∀ (count first : Nat) (s : σ), first + count = last → P first s →
      ∃ s', forRange body count first s = .ok s' ∧ P last s' := by
  intro count
  induction count with
  | zero =>
    rintro first s rfl h
    exact ⟨s, rfl, h⟩
  | succ count ih =>
    intro first s hlast h
    obtain ⟨s₁, hs₁, h₁⟩ := hbody first s (by omega) h
    obtain ⟨s', hs', h'⟩ := ih (first + 1) s₁ (by omega) h₁
    refine ⟨s', ?_, h'⟩
    simp only [forRange, hs₁, ok_bind, hs']

/-- **Partial loop rule.** What the body carries from each index to the next holds at the end of a loop
that ended. -/
theorem forRange_carries (body : Nat → σ → Except φ σ) (P : Nat → σ → Prop) (last : Nat)
    (hbody : ∀ i s s', i < last → P i s → body i s = .ok s' → P (i + 1) s') :
    ∀ (count first : Nat) (s s' : σ), first + count = last → P first s →
      forRange body count first s = .ok s' → P last s' := by
  intro count
  induction count with
  | zero =>
    rintro first s s' rfl h hs
    cases hs
    exact h
  | succ count ih =>
    intro first s s' hlast h hs
    obtain ⟨s₁, hs₁, hrest⟩ := bind_eq_ok_iff.mp hs
    exact ih (first + 1) s₁ s' (by omega) (hbody first s s₁ (by omega) h hs₁) hrest

/-! ## Runs -/

/-- Make the calls in order and collect the replies; a fault ends the run. -/
def run (step : σ → α → Except φ (ρ × σ)) : σ → List α → Except φ (List ρ × σ)
  | s, [] => .ok ([], s)
  | s, a :: as => do
    let (r, s') ← step s a
    let (rs, s'') ← run step s' as
    .ok (r :: rs, s'')

/-- The same for a total reference machine. -/
def refRun (step : τ → α → ρ × τ) : τ → List α → List ρ × τ
  | t, [] => ([], t)
  | t, a :: as => ((step t a).1 :: (refRun step (step t a).2 as).1, (refRun step (step t a).2 as).2)

variable {step : σ → α → Except φ (ρ × σ)}

theorem run_cons_ok {s s' s'' : σ} {a : α} {as : List α} {r : ρ} {rs : List ρ}
    (h : step s a = .ok (r, s')) (hs : run step s' as = .ok (rs, s'')) :
    run step s (a :: as) = .ok (r :: rs, s'') := by
  simp only [run, h, ok_bind, hs]

theorem run_concat_ok {s s' s'' : σ} {a : α} {as : List α} {r : ρ} {rs : List ρ}
    (hs : run step s as = .ok (rs, s')) (h : step s' a = .ok (r, s'')) :
    run step s (as ++ [a]) = .ok (rs ++ [r], s'') := by
  induction as generalizing s rs with
  | nil =>
    cases hs
    exact run_cons_ok h rfl
  | cons b as ih =>
    simp only [run, bind_eq_ok_iff] at hs
    obtain ⟨⟨r₁, s₁⟩, hb, ⟨rs₁, s₂⟩, has, heq⟩ := hs
    cases heq
    exact run_cons_ok hb (ih has)

/-- A run goes on where the one before it ended. -/
theorem run_append {s s' : σ} {as : List α} {rs : List ρ} (hs : run step s as = .ok (rs, s')) (bs : List α) :
    run step s (as ++ bs) = run step s' bs >>= fun r => .ok (rs ++ r.1, r.2) := by
  induction as generalizing s rs with
  | nil =>
    obtain ⟨hrs, hs'⟩ := Prod.mk.inj (Except.ok.inj hs)
    rw [← hrs, ← hs', List.nil_append]
    cases run step s bs with
    | error e => rfl
    | ok r => rfl
  | cons a as ih =>
    simp only [run, bind_eq_ok_iff] at hs
    obtain ⟨⟨r, s₁⟩, ha, ⟨rs₁, s₂⟩, has, heq⟩ := hs
    cases heq
    rw [List.cons_append, run, ha, ok_bind]
    simp only [ih has]
    cases run step s₂ bs with
    | error e => rfl
    | ok r => rfl

/-- **Simulation rule.** If related states answer every call alike and stay related, runs give the
same replies. -/
theorem run_simulates {ref : τ → α → ρ × τ} {R : σ → τ → Prop}
    (hstep : ∀ s t a, R s t → ∃ s', step s a = .ok ((ref t a).1, s') ∧ R s' (ref t a).2) :
    ∀ (as : List α) (s : σ) (t : τ), R s t →
      ∃ s', run step s as = .ok ((refRun ref t as).1, s') ∧ R s' (refRun ref t as).2 := by
  intro as
  induction as with
  | nil => intro s t h; exact ⟨s, rfl, h⟩
  | cons a as ih =>
    intro s t h
    obtain ⟨s', hs, h'⟩ := hstep s t a h
    obtain ⟨s'', hr, h''⟩ := ih s' _ h'
    exact ⟨s'', run_cons_ok hs hr, h''⟩

/-- The runs of a reference machine whose steps have more than one outcome -/
inductive RefRuns (ref : τ → α → ρ → τ → Prop) : τ → List α → List ρ → τ → Prop
  | nil (t : τ) : RefRuns ref t [] [] t
  | cons {t t' t'' : τ} {a : α} {as : List α} {r : ρ} {rs : List ρ} (h : ref t a r t')
      (hs : RefRuns ref t' as rs t'') : RefRuns ref t (a :: as) (r :: rs) t''

/-- **Simulation rule, with choices.** If every step is one the reference machine could take, so is every run. -/
theorem run_simulates_some {ref : τ → α → ρ → τ → Prop} {R : σ → τ → Prop}
    (hstep : ∀ s t a, R s t → ∃ r s' t', step s a = .ok (r, s') ∧ ref t a r t' ∧ R s' t') :
    ∀ (as : List α) (s : σ) (t : τ), R s t →
      ∃ rs s' t', run step s as = .ok (rs, s') ∧ RefRuns ref t as rs t' ∧ R s' t' := by
  intro as
  induction as with
  | nil => intro s t h; exact ⟨[], s, t, rfl, .nil t, h⟩
  | cons a as ih =>
    intro s t h
    obtain ⟨r, s', t', hs, href, h'⟩ := hstep s t a h
    obtain ⟨rs, s'', t'', hr, hrefs, h''⟩ := ih s' t' h'
    exact ⟨r :: rs, s'', t'', run_cons_ok hs hr, .cons href hrefs, h''⟩

/-! ## Two states of one machine -/

/-- Two outcomes a caller cannot tell apart, with the states related by `R` -/
inductive Alike (R : σ → σ → Prop) : Except φ (ρ × σ) → Except φ (ρ × σ) → Prop
  | fault (e : φ) : Alike R (.error e) (.error e)
  | reply (r : ρ) {s t : σ} (h : R s t) : Alike R (.ok (r, s)) (.ok (r, t))

/-- The replies of a run, or the fault that ended it -/
def replies (step : σ → α → Except φ (ρ × σ)) (s : σ) (as : List α) : Except φ (List ρ) :=
  (run step s as).map Prod.fst

theorem replies_cons (s : σ) (a : α) (as : List α) :
    replies step s (a :: as) = step s a >>= fun x => (x.1 :: ·) <$> replies step x.2 as := by
  simp only [replies, run]
  cases step s a with
  | error e => rfl
  | ok x =>
    simp only [ok_bind]
    cases run step x.2 as <;> rfl

theorem replies_singleton {s s' : σ} {a : α} {r : ρ} (h : step s a = .ok (r, s')) :
    replies step s [a] = .ok [r] := by
  rw [replies_cons, h]
  rfl

/-- **Indistinguishability rule.** If calls allowed by `ok` answer alike in related states and keep
them related, so do runs of such calls. -/
theorem replies_eq {R : σ → σ → Prop} {ok : α → Prop}
    (hstep : ∀ s t a, ok a → R s t → Alike R (step s a) (step t a)) :
    ∀ (as : List α) (s t : σ), (∀ a ∈ as, ok a) → R s t →
      replies step s as = replies step t as := by
  intro as
  induction as with
  | nil => intro s t _ _; rfl
  | cons a as ih =>
    intro s t hok h
    have halike := hstep s t a (hok a (by simp)) h
    rw [replies_cons, replies_cons]
    generalize step s a = x at halike ⊢
    generalize step t a = y at halike ⊢
    cases halike with
    | fault e => rfl
    | reply r h' =>
      rw [ok_bind, ok_bind, ih _ _ (fun b hb => hok b (List.mem_cons_of_mem a hb)) h']

end Machine
