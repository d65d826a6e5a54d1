import Mathlib.Data.List.Basic
import Mathlib.Data.List.Infix
import Mathlib.Data.List.Sort
import Mathlib.Data.String.Basic

/-!
# Lines

A text of lines, each with its end. No line contains an end, so the lines of a text are determined,
also those of a text that breaks off. Where the number of the last lines is told in front of them, a
text that breaks off is no text of its own.

## Main definitions

* `unlines`: the text.

## Main results

* `append_end_inj`: what stands in front of the first end is determined;
* `unlines_prefix_iff`: a text starts with another one exactly if its lines do;
* `counted_inj_of_prefix`: of two lists that tell how many lines come last, none starts with the
  other one.
-/

namespace Lace.Library

variable {α β : Type*} (nl : α)

/-- The lines, each with its end. -/
def unlines (ls : List (List α)) : List α := ls.flatMap fun l => l ++ [nl]

variable {nl} {l : List α} {ls ls' : List (List α)}

@[simp]
theorem unlines_nil : unlines nl [] = [] := rfl

@[simp]
theorem unlines_cons : unlines nl (l :: ls) = l ++ nl :: unlines nl ls := by
  simp [unlines]

/-- What stands in front of the first end is determined, and so is what follows it. -/
theorem append_end_inj {l' t t' : List α} (h : nl ∉ l) (h' : nl ∉ l')
    (heq : l ++ nl :: t = l' ++ nl :: t') : l = l' ∧ t = t' := by
  rcases List.append_eq_append_iff.mp heq with ⟨a, rfl, ha⟩ | ⟨a, rfl, ha⟩
  · cases a with
    | nil => exact ⟨(List.append_nil l).symm, (List.cons.inj ha).2⟩
    | cons c a =>
      obtain rfl := (List.cons.inj ha).1
      exact absurd (List.mem_append_right l List.mem_cons_self) h'
  · cases a with
    | nil => exact ⟨List.append_nil l', (List.cons.inj ha).2.symm⟩
    | cons c a =>
      obtain rfl := (List.cons.inj ha).1
      exact absurd (List.mem_append_right l' List.mem_cons_self) h

/-- A text starts with another one exactly if its lines do. -/
theorem unlines_prefix_iff (h : ∀ l ∈ ls, nl ∉ l) (h' : ∀ l ∈ ls', nl ∉ l) :
    unlines nl ls <+: unlines nl ls' ↔ ls <+: ls' := by
  induction ls generalizing ls' with
  | nil => simp
  | cons l ls ih =>
    cases ls' with
    | nil =>
      have hne : ¬(l :: ls <+: []) := fun hp => by simpa using List.prefix_nil.mp hp
      refine iff_of_false (fun hp => ?_) hne
      have hnil := List.prefix_nil.mp hp
      simp at hnil
    | cons l' ls' =>
      rw [List.forall_mem_cons] at h h'
      rw [unlines_cons, unlines_cons, List.cons_prefix_cons, ← ih h.2 h'.2]
      constructor
      · rintro ⟨t, ht⟩
        -- The first end is where the first line ends.
        rw [List.append_assoc, List.cons_append] at ht
        obtain ⟨hl, ht⟩ := append_end_inj h.1 h'.1 ht
        exact ⟨hl, t, ht⟩
      · rintro ⟨rfl, hp⟩
        exact (List.prefix_append_right_inj l).mpr (List.cons_prefix_cons.mpr ⟨rfl, hp⟩)

variable {mark : ℕ → β} {front front' back back' : List β}

/-- Of two lists that tell how many entries come last, none starts with the other one. -/
theorem counted_inj_of_prefix (hmark : Function.Injective mark)
    (hfront : ∀ b ∈ front, ∀ n, b ≠ mark n) (hfront' : ∀ b ∈ front', ∀ n, b ≠ mark n)
    (hp : front ++ mark back.length :: back <+: front' ++ mark back'.length :: back') :
    front = front' ∧ back = back' := by
  induction front generalizing front' with
  | nil =>
    cases front' with
    | nil =>
      obtain ⟨hcount, hp⟩ := List.cons_prefix_cons.mp hp
      exact ⟨rfl, hp.eq_of_length (hmark hcount)⟩
    | cons b front' =>
      exact absurd (List.cons_prefix_cons.mp hp).1.symm (hfront' b List.mem_cons_self _)
  | cons a front ih =>
    cases front' with
    | nil => exact absurd (List.cons_prefix_cons.mp hp).1 (hfront a List.mem_cons_self _)
    | cons b front' =>
      obtain ⟨rfl, htail⟩ := List.cons_prefix_cons.mp hp
      obtain ⟨rfl, hback⟩ := ih (fun c hc => hfront c (List.mem_cons_of_mem a hc))
        (fun c hc => hfront' c (List.mem_cons_of_mem a hc)) htail
      exact ⟨rfl, hback⟩

/-! ### Numbers and rows -/

/-- The text of a number has no other symbols than digits and a sign. -/
theorem isDigit_or_eq_of_mem_toString {z : ℤ} {c : Char} (hc : c ∈ (toString z).toList) :
    c.isDigit = true ∨ c = '-' := by
  have hnat : ∀ (n : ℕ), c ∈ n.repr.toList → c.isDigit = true := by
    intro n hc
    rw [Nat.toList_repr] at hc
    exact Nat.isDigit_of_mem_toDigits (by decide) (by decide) hc
  rw [Int.toString_eq_repr, Int.repr_eq_if] at hc
  split at hc
  · exact Or.inl (hnat _ hc)
  · rw [String.toList_append, List.mem_append] at hc
    rcases hc with hc | hc
    · exact Or.inr (by simpa using hc)
    · exact Or.inl (hnat _ hc)

/-- Sorted rows are the same exactly if the rows are, in whatever order. -/
theorem insertionSort_eq_iff [LinearOrder α] {l l' : List α} :
    l.insertionSort (· ≤ ·) = l'.insertionSort (· ≤ ·) ↔ l.Perm l' := by
  constructor
  · intro h
    calc l.Perm (l.insertionSort (· ≤ ·)) := (List.perm_insertionSort _ l).symm
      _ = l'.insertionSort (· ≤ ·) := h
      List.Perm _ l' := List.perm_insertionSort _ l'
  · intro h
    refine List.Perm.eq_of_sortedLE (List.sortedLE_insertionSort) List.sortedLE_insertionSort ?_
    exact (List.perm_insertionSort _ l).trans (h.trans (List.perm_insertionSort _ l').symm)

end Lace.Library
