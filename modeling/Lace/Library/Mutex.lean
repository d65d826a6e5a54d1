import Mathlib.Logic.Function.Basic
import Mathlib.Tactic.Common

/-!
# Stores that a mutex guards

Several processes update a store. An update reads the store into a copy and writes back what it
computes from the copy, so two updates that overlap would lose one of them. A mutex guards the
store: a process takes it before it reads and gives it back after it has written. The steps of the
processes may come in any order.

## Main definitions

* `Stage`: where a process stands in its section;
* `Guarded`: the store and the holder of its mutex;
* `Guarded.step`: a step inside a section;
* `Guarded.Coherent`: the holder is the process that is inside, and its copy is fresh.

## Main results

* `Guarded.Coherent.step`: the steps keep coherence;
* `Guarded.Coherent.eq_of_inside`: two processes are not inside at once;
* `Guarded.Coherent.store_eq`: what a step stores is computed from what is stored.
-/

namespace Lace.Library

/-- Where a process stands in its section. -/
inductive Stage (σ : Type*)
  /-- It has not got the mutex. -/
  | waiting
  /-- It has got the mutex. -/
  | entered
  /-- It has read the store. -/
  | loaded (copy : σ)
  /-- It has written the store. -/
  | stored

/-- The process holds the mutex. -/
def Stage.Inside {σ : Type*} : Stage σ → Prop
  | .waiting => False
  | .entered | .loaded _ | .stored => True

/-- It has written the store. -/
def Stage.isStored {σ : Type*} : Stage σ → Bool
  | .stored => true
  | .waiting | .entered | .loaded _ => false

/-- A store with its mutex. -/
structure Guarded (ι σ : Type*) where
  /-- What is stored. -/
  store : σ
  /-- The process that holds the mutex. -/
  holder : Option ι

namespace Guarded

variable {ι σ : Type*}

/-- The mutex is given back. -/
def unlock (g : Guarded ι σ) : Guarded ι σ := { g with holder := none }

/-- One step of a process that makes an update, if it can go on. -/
def step (i : ι) (update : σ → σ) (g : Guarded ι σ) : Stage σ → Option (Guarded ι σ × Stage σ)
  | .waiting => if g.holder.isNone then some ({ g with holder := some i }, .entered) else none
  | .entered => some (g, .loaded g.store)
  | .loaded copy => some ({ g with store := update copy }, .stored)
  -- It has only to give the mutex back.
  | .stored => none

/-- The holder of the mutex is the process that is inside, and what a process has read is still
stored. -/
structure Coherent (g : Guarded ι σ) (stage : ι → Option (Stage σ)) : Prop where
  /-- The holder is inside, and nobody else is. -/
  holder_iff : ∀ i, g.holder = some i ↔ ∃ st, stage i = some st ∧ st.Inside
  /-- A copy is fresh. -/
  fresh : ∀ i copy, stage i = some (.loaded copy) → copy = g.store

variable {g g' : Guarded ι σ} {stage : ι → Option (Stage σ)} {i j : ι}
  {st st' : Stage σ} {update : σ → σ}

/-- Without sections a free mutex is coherent. -/
theorem coherent_of_none (hfree : g.holder = none) (hstage : ∀ i, stage i = none) :
    g.Coherent stage where
  holder_iff i := by simp [hfree, hstage]
  fresh i copy h := by simp [hstage] at h

/-- The mutex is taken while nobody holds it. -/
theorem step_waiting (hstep : g.step i update .waiting = some (g', st')) :
    g.holder = none ∧ { g with holder := some i } = g' ∧ .entered = st' := by
  rw [step] at hstep
  split_ifs at hstep with hfree
  exact ⟨Option.isNone_iff_eq_none.mp hfree, Prod.mk.inj (Option.some.inj hstep)⟩

/-- A process that has written makes no more step. -/
theorem isStored_of_step (hstep : g.step i update st = some (g', st')) : st.isStored = false := by
  cases st with
  | stored => cases hstep
  | waiting | entered | loaded => rfl

/-- A process that is inside has written or can go on. -/
theorem isSome_of_inside (hin : st.Inside) :
    st.isStored = true ∨ (g.step i update st).isSome := by
  cases st with
  | waiting => cases hin
  | entered | loaded => exact Or.inr rfl
  | stored => exact Or.inl rfl

namespace Coherent

/-- Two processes are not inside at once. -/
theorem eq_of_inside (h : g.Coherent stage) (hi : stage i = some st) (hin : st.Inside)
    (hj : stage j = some st') (hjn : st'.Inside) : i = j := by
  have hholder := (h.holder_iff i).mpr ⟨st, hi, hin⟩
  rw [(h.holder_iff j).mpr ⟨st', hj, hjn⟩] at hholder
  exact (Option.some.inj hholder).symm

/-- Nobody is inside while the mutex is free. -/
theorem not_inside (h : g.Coherent stage) (hfree : g.holder = none) (hj : stage j = some st) :
    ¬st.Inside := by
  intro hin
  rw [(h.holder_iff j).mpr ⟨st, hj, hin⟩] at hfree
  cases hfree

/-- A step applies its update to the store as soon as it has written, and leaves it alone before. -/
theorem store_eq (h : g.Coherent stage) (hi : stage i = some st)
    (hstep : g.step i update st = some (g', st')) :
    g'.store = if st'.isStored then update g.store else g.store := by
  cases st with
  | waiting =>
    obtain ⟨-, rfl, rfl⟩ := step_waiting hstep
    rfl
  | entered =>
    obtain ⟨rfl, rfl⟩ := Prod.mk.inj (Option.some.inj hstep)
    rfl
  | loaded copy =>
    obtain ⟨rfl, rfl⟩ := Prod.mk.inj (Option.some.inj hstep)
    exact congrArg update (h.fresh i copy hi)
  | stored => cases hstep

/-- A process in a section can go on, or the one that holds the mutex can, whatever its update. -/
theorem progress (h : g.Coherent stage) (i : ι) (update : σ → σ) (st : Stage σ) :
    (st.isStored = true ∨ (g.step i update st).isSome) ∨
      ∃ j st', stage j = some st' ∧ ∀ f, st'.isStored = true ∨ (g.step j f st').isSome := by
  cases st with
  | waiting =>
    cases hholder : g.holder with
    | none => exact Or.inl (Or.inr (by simp [Guarded.step, hholder]))
    | some j =>
      obtain ⟨st', hj, hin⟩ := (h.holder_iff j).mp hholder
      exact Or.inr ⟨j, st', hj, fun f => isSome_of_inside hin⟩
  | entered | loaded => exact Or.inl (Or.inr rfl)
  | stored => exact Or.inl (Or.inl rfl)

variable [DecidableEq ι]

/-- A process that was in no section waits for the mutex. -/
theorem wait (h : g.Coherent stage) (hi : stage i = none) :
    g.Coherent (Function.update stage i (some .waiting)) where
  holder_iff j := by
    rw [h.holder_iff j]
    rcases eq_or_ne j i with rfl | hne
    · simp [hi, Stage.Inside]
    · simp [hne]
  fresh j copy hj := by
    rcases eq_or_ne j i with rfl | hne
    · simp at hj
    · exact h.fresh j copy (by simpa [hne] using hj)

/-- A process that has written gives the mutex back. -/
theorem leave (h : g.Coherent stage) (hi : stage i = some .stored) :
    g.unlock.Coherent (Function.update stage i none) where
  holder_iff j := by
    rcases eq_or_ne j i with rfl | hne
    · simp [unlock]
    · -- Nobody else is inside.
      simp only [unlock, reduceCtorEq, ne_eq, hne, not_false_eq_true, Function.update_of_ne,
        false_iff, not_exists, not_and]
      intro st hj hin
      exact hne (h.eq_of_inside hj hin hi trivial)
  fresh j copy hj := by
    rcases eq_or_ne j i with rfl | hne
    · simp at hj
    · exact h.fresh j copy (by simpa [hne] using hj)

/-- The steps keep coherence. -/
theorem step (h : g.Coherent stage) (hi : stage i = some st)
    (hstep : g.step i update st = some (g', st')) :
    g'.Coherent (Function.update stage i (some st')) := by
  cases st with
  | waiting =>
    -- The mutex was free, so no other process is inside.
    obtain ⟨hfree, rfl, rfl⟩ := step_waiting hstep
    refine ⟨fun j => ?_, fun j copy hj => ?_⟩
    · rcases eq_or_ne j i with rfl | hne
      · simp [Stage.Inside]
      · simp only [Option.some.injEq, hne.symm, ne_eq, hne, not_false_eq_true,
          Function.update_of_ne, false_iff, not_exists, not_and]
        exact fun st hj => h.not_inside hfree hj
    · rcases eq_or_ne j i with rfl | hne
      · simp at hj
      · exact h.fresh j copy (by simpa [hne] using hj)
  | entered =>
    -- The process reads the value that it holds the mutex for.
    obtain ⟨rfl, rfl⟩ := Prod.mk.inj (Option.some.inj hstep)
    refine ⟨fun j => ?_, fun j copy hj => ?_⟩
    · rcases eq_or_ne j i with rfl | hne
      · simp [(h.holder_iff j).mpr ⟨_, hi, trivial⟩, Stage.Inside]
      · simp [h.holder_iff j, hne]
    · rcases eq_or_ne j i with rfl | hne
      · simpa [eq_comm] using hj
      · exact h.fresh j copy (by simpa [hne] using hj)
  | loaded copy =>
    -- The process writes and leaves.
    obtain ⟨rfl, rfl⟩ := Prod.mk.inj (Option.some.inj hstep)
    refine ⟨fun j => ?_, fun j copy' hj => ?_⟩
    · rcases eq_or_ne j i with rfl | hne
      · simp [(h.holder_iff j).mpr ⟨_, hi, trivial⟩, Stage.Inside]
      · simp [h.holder_iff j, hne]
    · -- The only process that could have a stale copy is the one that writes.
      rcases eq_or_ne j i with rfl | hne
      · simp at hj
      · have hj' : stage j = some (.loaded copy') := by simpa [hne] using hj
        exact absurd (h.eq_of_inside hj' trivial hi trivial) hne
  | stored => cases hstep

end Coherent

end Guarded

end Lace.Library
