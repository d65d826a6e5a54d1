import Mathlib.Data.List.MinMax
import Mathlib.Data.List.Sort

/-!
# Ranking

A list is sorted stably by a comparison that tells whether an element is better than another one,
and cut after the best elements. Where only the best element is looked for, a loop keeps the best
one so far.

## Main definitions

* `RanksBy`: the comparison compares a key;
* `ranked`: the sorted list.

## Main results

* `pairwise_ranked`: no element is better than one before it;
* `not_better_of_mem_drop`: no element behind the cut is better than one before it;
* `foldl_better_spec`, `best_foldl`: the best element so far is at least as good as all others, and
  has the least key of all that were read;
* `minimum_perm`: the least key does not depend on the order.
-/

namespace Lace.Library

variable {α κ : Type*}

/-- An element is better than another one if its key is smaller. -/
def RanksBy [LinearOrder κ] (key : α → κ) (better : α → α → Bool) : Prop :=
  ∀ a b, better a b = true ↔ key a < key b

variable (better : α → α → Bool)

/-- Sort a list stably, with the better elements first. -/
def ranked (l : List α) : List α := l.insertionSort fun a b => better b a = false

variable {better} {l : List α} {x y : α}

theorem ranked_perm : (ranked better l).Perm l := List.perm_insertionSort _ l

@[simp]
theorem mem_ranked : x ∈ ranked better l ↔ x ∈ l := ranked_perm.mem_iff

@[simp]
theorem length_ranked : (ranked better l).length = l.length := ranked_perm.length_eq

section Key

variable [LinearOrder κ] {key : α → κ} (hkey : RanksBy key better)
include hkey

theorem RanksBy.eq_false_iff : better x y = false ↔ key y ≤ key x := by
  rw [← not_lt, ← hkey x y, Bool.not_eq_true]

/-- No element is better than one before it. -/
theorem pairwise_ranked : (ranked better l).Pairwise fun a b => better b a = false := by
  have htotal : Std.Total fun a b => better b a = false := by
    refine ⟨fun a b => ?_⟩
    rw [hkey.eq_false_iff, hkey.eq_false_iff]
    exact le_total _ _
  have htrans : IsTrans α fun a b => better b a = false := by
    refine ⟨fun a b c hab hbc => ?_⟩
    rw [hkey.eq_false_iff] at hab hbc ⊢
    exact hab.trans hbc
  exact List.pairwise_insertionSort _ l

/-- No element behind the cut is better than one before it. -/
theorem not_better_of_mem_drop {k : ℕ} (hx : x ∈ (ranked better l).take k)
    (hy : y ∈ (ranked better l).drop k) : better y x = false := by
  have hsorted := pairwise_ranked (l := l) hkey
  rw [← List.take_append_drop k (ranked better l)] at hsorted
  exact (List.pairwise_append.mp hsorted).2.2 x hx y hy

end Key

/-! ### The best element so far -/

/-- A loop that keeps the better one of two elements ends with an element that is at least as good
as all others, the first one included. -/
theorem foldl_better_spec {R : α → α → Prop} {pick : α → α → α} (hrefl : ∀ a, R a a)
    (htrans : ∀ a b c, R a b → R b c → R a c)
    (hpick : ∀ a b, (pick a b = a ∨ pick a b = b) ∧ R a (pick a b) ∧ R b (pick a b))
    (first : α) (l : List α) :
    l.foldl pick first ∈ first :: l ∧ ∀ x ∈ first :: l, R x (l.foldl pick first) := by
  induction l generalizing first with
  | nil => exact ⟨List.mem_cons_self, fun x hx => List.mem_singleton.mp hx ▸ hrefl first⟩
  | cons y l ih =>
    obtain ⟨hcases, hfirst, hy⟩ := hpick first y
    obtain ⟨hmem, hall⟩ := ih (pick first y)
    -- What is better than the better one of two is better than both.
    have hbest := hall _ List.mem_cons_self
    rw [List.foldl_cons]
    refine ⟨?_, List.forall_mem_cons.mpr ⟨htrans _ _ _ hfirst hbest, List.forall_mem_cons.mpr
      ⟨htrans _ _ _ hy hbest, fun x hx => hall x (List.mem_cons_of_mem _ hx)⟩⟩⟩
    -- The result is one of the list, or the better one of the first two.
    rcases List.mem_cons.mp hmem with heq | hmem
    · rw [heq]
      rcases hcases with h | h
      · rw [h]
        exact List.mem_cons_self
      · rw [h]
        exact List.mem_cons_of_mem _ List.mem_cons_self
    · exact List.mem_cons_of_mem _ (List.mem_cons_of_mem _ hmem)

section Best

variable {β : Type*} [LinearOrder κ] {step : β → α → β} {key : α → Option κ} {Valid : β → Prop}
  {val : β → WithTop κ}

/-- The element that a loop keeps has the least key of all elements that were read, if a turn keeps
the smaller one of two keys. An element without a key is passed over. -/
theorem best_foldl
    (hstep : ∀ b x, Valid b → Valid (step b x) ∧ val (step b x) = min (val b) (key x).toList.minimum)
    {b : β} (hb : Valid b) (l : List α) :
    Valid (l.foldl step b) ∧ val (l.foldl step b) = min (val b) (l.filterMap key).minimum := by
  induction l generalizing b with
  | nil => exact ⟨hb, (min_eq_left le_top).symm⟩
  | cons x l ih =>
    obtain ⟨hvalid, hval⟩ := hstep b x hb
    obtain ⟨hvalid', hval'⟩ := ih hvalid
    refine ⟨hvalid', ?_⟩
    rw [List.foldl_cons, hval', hval, min_assoc, ← List.minimum_append]
    -- The key of the first element stands in front of the others.
    cases hkey : key x with
    | none => simp [hkey]
    | some k => simp [hkey]

/-- The least element of a list does not depend on the order. -/
theorem minimum_perm {l l' : List κ} (h : l.Perm l') : l.minimum = l'.minimum :=
  le_antisymm (List.minimum_anti h.symm.subset) (List.minimum_anti h.subset)

end Best

end Lace.Library
