import Mathlib.Tactic.ByContra

/-!
# Machines with inputs

A machine is a partial step function on states and inputs. `Always` and `Meets` speak of the
states a run visits and of the steps it takes, and `always_iff_meets` is the rule for a property
that holds along a run exactly as long as every step meets a guard.

## Main results

* `Always.of_meets`: an invariant that the guarded steps keep holds along guarded runs.
* `inv_of_runInputs`: an invariant that all steps keep holds after every run.
* `always_iff_meets`: if besides every unguarded step leaves the property, the runs that keep the
  property are exactly the guarded ones.
-/

namespace Lace.Library

variable {σ ι : Type*} (step : σ → ι → Option σ)

/-- The state after a list of inputs, if the machine takes them all. -/
def runInputs (s : σ) : List ι → Option σ
  | [] => some s
  | i :: is => (step s i).bind fun s' => runInputs s' is

/-- `P` holds in every state the inputs lead through. -/
def Always (P : σ → Prop) (s : σ) : List ι → Prop
  | [] => P s
  | i :: is => P s ∧ ∀ s', step s i = some s' → Always P s' is

/-- Every step that the inputs lead through meets the guard. -/
def Meets (ok : σ → ι → Prop) (s : σ) : List ι → Prop
  | [] => True
  | i :: is => ∀ s', step s i = some s' → ok s i ∧ Meets ok s' is

instance decidableMeets (ok : σ → ι → Prop) [∀ s i, Decidable (ok s i)] (s : σ) (is : List ι) :
    Decidable (Meets step ok s is) :=
  match is with
  | [] => inferInstanceAs (Decidable True)
  | i :: is =>
    match hstep : step s i with
    | none => .isTrue fun s' h => absurd (hstep.symm.trans h) (by simp)
    | some t =>
      have := decidableMeets ok t is
      decidable_of_iff (ok s i ∧ Meets step ok t is) <| by
        rw [Meets]
        exact ⟨fun h s' hs' => Option.some.inj (hstep.symm.trans hs') ▸ h, fun h => h t hstep⟩

variable {step} {P Inv : σ → Prop} {ok : σ → ι → Prop} {s s' : σ} {i : ι} {is : List ι}

theorem Always.head (h : Always step P s is) : P s := by
  cases is with
  | nil => exact h
  | cons i is => exact h.1

/-- What holds all along a run holds where it ends. -/
theorem Always.last (h : Always step P s is) (hrun : runInputs step s is = some s') : P s' := by
  induction is generalizing s with
  | nil =>
    obtain rfl : s = s' := Option.some.inj hrun
    exact h
  | cons i is ih =>
    obtain ⟨t, ht, hrun⟩ := Option.bind_eq_some_iff.mp hrun
    exact ih (h.2 t ht) hrun

theorem Always.mono {Q : σ → Prop} (hPQ : ∀ s, P s → Q s) (h : Always step P s is) :
    Always step Q s is := by
  induction is generalizing s with
  | nil => exact hPQ s h
  | cons i is ih => exact ⟨hPQ s h.1, fun t ht => ih (h.2 t ht)⟩

/-- An invariant that the guarded steps keep holds along every guarded run. -/
theorem Always.of_meets (hstep : ∀ s i s', Inv s → step s i = some s' → ok s i → Inv s')
    (hs : Inv s) (hmeets : Meets step ok s is) : Always step Inv s is := by
  induction is generalizing s with
  | nil => exact hs
  | cons i is ih =>
    refine ⟨hs, fun t ht => ?_⟩
    obtain ⟨hok, hmeets⟩ := hmeets t ht
    exact ih (hstep s i t hs ht hok) hmeets

/-- An invariant that all steps keep holds after every run. -/
theorem inv_of_runInputs (hstep : ∀ s i s', Inv s → step s i = some s' → Inv s') (hs : Inv s)
    (hrun : runInputs step s is = some s') : Inv s' := by
  induction is generalizing s with
  | nil =>
    obtain rfl : s = s' := Option.some.inj hrun
    exact hs
  | cons i is ih =>
    obtain ⟨t, ht, hrun⟩ := Option.bind_eq_some_iff.mp hrun
    exact ih (hstep s i t hs ht) hrun

/-- A run keeps the property exactly as long as its steps meet the guard, if the guarded steps
keep an invariant that implies the property and every other step from it loses the property. -/
theorem always_iff_meets (hP : ∀ s, Inv s → P s)
    (hstep : ∀ s i s', Inv s → step s i = some s' → ok s i → Inv s')
    (hlose : ∀ s i s', Inv s → step s i = some s' → ¬ ok s i → ¬ P s') (hs : Inv s) :
    Always step P s is ↔ Meets step ok s is := by
  constructor
  · intro h
    induction is generalizing s with
    | nil => trivial
    | cons i is ih =>
      intro t ht
      -- The first step that misses the guard would lose the property.
      have hok : ok s i := by
        by_contra hno
        exact hlose s i t hs ht hno (h.2 t ht).head
      exact ⟨hok, ih (hstep s i t hs ht hok) (h.2 t ht)⟩
  · intro h
    exact (Always.of_meets hstep hs h).mono hP

end Lace.Library
