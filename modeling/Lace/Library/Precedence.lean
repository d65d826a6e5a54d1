import Mathlib.Data.List.Basic

/-!
# One element of a list before another

`[a, b] <+ l` says that `a` stands somewhere before `b` in `l`. The ordered pairs of a list are what
two nested loops run through, the inner one behind the outer one, and a scan with a flag looks for
an element behind another one.

## Main definitions

* `orderedPairs`: the pairs of a list, each in the order of the list;
* `scanPair`: the scan;
* `Precedes`: an element with one property stands before one with another.

## Main results

* `mem_orderedPairs`: the pairs of the nested loops;
* `scanPair_iff`: what the scan finds;
* `Precedes.or_swap`: two properties that both occur stand in one order or the other.
-/

namespace Lace.Library

open scoped List

variable {α : Type*} {p q : α → Prop} {l : List α} {a b x : α}

/-- The pairs of a list, each in the order of the list. -/
def orderedPairs : List α → List (α × α)
  | [] => []
  | x :: xs => xs.map (fun y => (x, y)) ++ orderedPairs xs

/-- Whether the second test succeeds behind an element of the first one; the flag tells whether one
has been found. -/
def scanPair (first second : α → Bool) : Bool → List α → Bool
  | _, [] => false
  | found, x :: xs =>
    if first x then scanPair first second true xs
    else if found && second x then true
    else scanPair first second found xs

/-- An element with the first property stands before one with the second. -/
def Precedes (p q : α → Prop) (l : List α) : Prop :=
  ∃ a b, [a, b] <+ l ∧ p a ∧ q b

theorem pair_sublist_cons_iff : [a, b] <+ x :: l ↔ a = x ∧ b ∈ l ∨ [a, b] <+ l := by
  rw [List.cons_sublist_cons', List.singleton_sublist, or_comm]

theorem mem_orderedPairs : (a, b) ∈ orderedPairs l ↔ [a, b] <+ l := by
  induction l with
  | nil => simp [orderedPairs]
  | cons x l ih =>
    rw [orderedPairs, List.mem_append, ih, pair_sublist_cons_iff, List.mem_map]
    refine or_congr_left ?_
    constructor
    · rintro ⟨y, hy, heq⟩
      obtain ⟨rfl, rfl⟩ := Prod.mk.inj heq
      exact ⟨rfl, hy⟩
    · rintro ⟨rfl, hb⟩
      exact ⟨b, hb, rfl⟩

/-! ### Precedence -/

instance [DecidablePred p] [DecidablePred q] : Decidable (Precedes p q l) :=
  decidable_of_iff (∃ ab ∈ orderedPairs l, p ab.1 ∧ q ab.2) <| by
    rw [Prod.exists]
    simp only [mem_orderedPairs]
    rfl

theorem precedes_cons_iff :
    Precedes p q (x :: l) ↔ p x ∧ (∃ b ∈ l, q b) ∨ Precedes p q l := by
  constructor
  · rintro ⟨a, b, hab, ha, hb⟩
    obtain ⟨rfl, hmem⟩ | hab := pair_sublist_cons_iff.mp hab
    · exact Or.inl ⟨ha, b, hmem, hb⟩
    · exact Or.inr ⟨a, b, hab, ha, hb⟩
  · rintro (⟨hx, b, hmem, hb⟩ | ⟨a, b, hab, ha, hb⟩)
    · exact ⟨x, b, pair_sublist_cons_iff.mpr (Or.inl ⟨rfl, hmem⟩), hx, hb⟩
    · exact ⟨a, b, pair_sublist_cons_iff.mpr (Or.inr hab), ha, hb⟩

theorem Precedes.left (h : Precedes p q l) : ∃ a ∈ l, p a := by
  obtain ⟨a, b, hab, ha, -⟩ := h
  exact ⟨a, hab.subset List.mem_cons_self, ha⟩

theorem Precedes.right (h : Precedes p q l) : ∃ b ∈ l, q b := by
  obtain ⟨a, b, hab, -, hb⟩ := h
  exact ⟨b, hab.subset (by simp), hb⟩

/-- Two properties that occur, but never at one element, stand in one order or the other. -/
theorem Precedes.or_swap (hp : ∃ a ∈ l, p a) (hq : ∃ b ∈ l, q b) (hdisj : ∀ a, p a → ¬q a) :
    Precedes p q l ∨ Precedes q p l := by
  induction l with
  | nil =>
    obtain ⟨a, ha, -⟩ := hp
    exact absurd ha List.not_mem_nil
  | cons x l ih =>
    rw [precedes_cons_iff, precedes_cons_iff]
    obtain ⟨a, ha, hpa⟩ := hp
    obtain ⟨b, hb, hqb⟩ := hq
    -- The element in front has one of the properties, or both occur behind it.
    rcases List.mem_cons.mp ha with rfl | hal
    · rcases List.mem_cons.mp hb with rfl | hbl
      · exact absurd hqb (hdisj _ hpa)
      · exact Or.inl (Or.inl ⟨hpa, b, hbl, hqb⟩)
    · rcases List.mem_cons.mp hb with rfl | hbl
      · exact Or.inr (Or.inl ⟨hqb, a, hal, hpa⟩)
      · exact (ih ⟨a, hal, hpa⟩ ⟨b, hbl, hqb⟩).imp Or.inr Or.inr

/-! ### The scan -/

/-- With the flag set, the scan looks for the second test, where the first one fails. -/
theorem scanPair_true_iff {first second : α → Bool} :
    scanPair first second true l = true ↔ ∃ b ∈ l, second b = true ∧ first b = false := by
  induction l with
  | nil => simp [scanPair]
  | cons x l ih =>
    rw [scanPair, List.exists_mem_cons_iff]
    cases hfirst : first x with
    | true => simpa using ih
    | false => cases hsecond : second x <;> simp [ih]

/-- For tests that never succeed together, the scan finds the second one behind the first. -/
theorem scanPair_iff {first second : α → Bool} (hdisj : ∀ x, first x = true → second x = false) :
    scanPair first second false l = true ↔
      Precedes (fun a => first a = true) (fun b => second b = true) l := by
  induction l with
  | nil =>
    refine iff_of_false Bool.false_ne_true fun h => ?_
    obtain ⟨a, ha, -⟩ := h.left
    exact List.not_mem_nil ha
  | cons x l ih =>
    rw [scanPair, precedes_cons_iff]
    cases hfirst : first x with
    | true =>
      -- Where the second test succeeds, the first one fails.
      have hrest : (∃ b ∈ l, second b = true ∧ first b = false) ↔ ∃ b ∈ l, second b = true := by
        refine exists_congr fun b => and_congr_right fun _ => and_iff_left_of_imp fun hb => ?_
        cases hb' : first b with
        | true => rw [hdisj b hb'] at hb; cases hb
        | false => rfl
      rw [if_pos rfl, scanPair_true_iff, hrest]
      constructor
      · exact fun h => Or.inl ⟨rfl, h⟩
      · rintro (⟨-, h⟩ | h)
        · exact h
        · exact h.right
    | false => simpa using ih

end Lace.Library
