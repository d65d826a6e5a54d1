import Mathlib.Logic.Relation
import Mathlib.Data.Nat.Notation

/-!
# Counted steps of a relation

`Steps R a n b` says that `b` is reached from `a` by exactly `n` steps of `R`. It is
`Relation.ReflTransGen R` with the number of steps kept, which is what a search with a depth
cap has to be compared with.

## Main results

* `Steps.trans`, `Steps.head`: composition;
* `Steps.mono`: a larger relation has every chain of a smaller one;
* `exists_steps_last_iff`: the last step of a chain;
* `exists_steps_iff`: forgetting the count gives `Relation.ReflTransGen`.
-/

namespace Lace.Library

variable {α β : Type*} {R S : α → α → Prop} {a b c : α} {m n : ℕ}

/-- `b` is reached from `a` by exactly `n` steps of `R`. -/
inductive Steps (R : α → α → Prop) (a : α) : ℕ → α → Prop
  | refl : Steps R a 0 a
  | tail {n : ℕ} {b c : α} : Steps R a n b → R b c → Steps R a (n + 1) c

namespace Steps

theorem single (h : R a b) : Steps R a 1 b :=
  .tail .refl h

/-- Chains compose and their lengths add up. -/
theorem trans (hab : Steps R a m b) (hbc : Steps R b n c) : Steps R a (m + n) c := by
  induction hbc with
  | refl => exact hab
  | tail _ hstep ih => exact .tail ih hstep

/-- A step in front of a chain. -/
theorem head (hab : R a b) (hbc : Steps R b n c) : Steps R a (n + 1) c := by
  rw [Nat.add_comm]
  exact (single hab).trans hbc

/-- Every chain of a relation is a chain of a larger one. -/
theorem mono (hRS : ∀ x y, R x y → S x y) (h : Steps R a n b) : Steps S a n b := by
  induction h with
  | refl => exact .refl
  | tail _ hstep ih => exact .tail ih (hRS _ _ hstep)

/-- A map that sends steps to steps sends chains to chains of the same length. -/
theorem map {S : β → β → Prop} (f : α → β) (hf : ∀ x y, R x y → S (f x) (f y))
    (h : Steps R a n b) : Steps S (f a) n (f b) := by
  induction h with
  | refl => exact .refl
  | tail _ hstep ih => exact .tail ih (hf _ _ hstep)

theorem eq_of_zero (h : Steps R a 0 b) : a = b := by
  cases h
  rfl

end Steps

/-- A chain to another end has a last step. -/
theorem exists_steps_last_iff {k : ℕ} (hne : a ≠ b) :
    (∃ n < k, ∃ c, Steps R a n c ∧ R c b) ↔ ∃ n ≤ k, Steps R a n b := by
  constructor
  · rintro ⟨n, hn, c, hsteps, hlast⟩
    exact ⟨n + 1, hn, hsteps.tail hlast⟩
  · rintro ⟨n, hn, hsteps⟩
    cases hsteps with
    | refl => exact absurd rfl hne
    | @tail n c _ hsteps hlast => exact ⟨n, hn, c, hsteps, hlast⟩

/-- Forgetting the number of steps gives the reflexive transitive closure. -/
theorem exists_steps_iff : (∃ n, Steps R a n b) ↔ Relation.ReflTransGen R a b := by
  constructor
  · rintro ⟨n, h⟩
    induction h with
    | refl => exact .refl
    | tail _ hstep ih => exact ih.tail hstep
  · intro h
    induction h with
    | refl => exact ⟨0, .refl⟩
    | tail _ hstep ih =>
        obtain ⟨n, hn⟩ := ih
        exact ⟨n + 1, hn.tail hstep⟩

end Lace.Library
