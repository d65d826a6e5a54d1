import Mathlib.Data.List.Infix

/-!
# Joining with a separator

A list of texts joined with a separator can be taken apart again if no text runs into the
separator behind it.

## Main definitions

* `Separable`: the separator does not occur in the text before the end of the separator that
  follows it.

## Main results

* `intercalate_inj`: separable texts are determined by their join.
-/

namespace Lace.Library

variable {α : Type*} (sep : List α)

/-- The text is not empty and the separator does not occur in it, nor across its end. -/
def Separable (t : List α) : Prop :=
  t ≠ [] ∧ ¬sep <:+: t ++ sep.dropLast

instance [DecidableEq α] (t : List α) : Decidable (Separable sep t) :=
  inferInstanceAs (Decidable (_ ∧ _))

variable {sep} {t t' r r' : List α}

theorem Separable.not_infix (h : Separable sep t) : ¬sep <:+: t :=
  fun hsep => h.2 (hsep.trans (List.prefix_append t _).isInfix)

/-- A separator of one symbol only has to be missing from the text. -/
theorem separable_singleton_iff {a : α} : Separable [a] t ↔ t ≠ [] ∧ a ∉ t := by
  simp [Separable, List.singleton_infix_iff]

/-- A separator ends the first separable text. -/
theorem Separable.eq_nil_of_append (hsep : sep ≠ []) {a : List α} (h : Separable sep (t ++ a))
    (heq : sep ++ r = a ++ (sep ++ r')) : a = [] := by
  by_contra ha
  have hpos : 0 < a.length := List.length_pos_iff.mpr ha
  have hsep_pos : 0 < sep.length := List.length_pos_iff.mpr hsep
  -- The first separator would lie within `a` and all but the last symbol of the second one.
  have hfirst : sep <+: a ++ (sep ++ r') := heq ▸ List.prefix_append sep r
  have hprefix : sep <+: a ++ sep.dropLast := by
    apply List.prefix_of_prefix_length_le hfirst
    · exact (List.prefix_append_right_inj a).mpr
        ((List.dropLast_prefix sep).trans (List.prefix_append sep r'))
    · rw [List.length_append, List.length_dropLast]
      omega
  apply h.2
  rw [List.append_assoc]
  exact hprefix.isInfix.trans (List.suffix_append t _).isInfix

/-- The first text and what follows its separator are determined. -/
theorem append_sep_inj (hsep : sep ≠ []) (ht : Separable sep t) (ht' : Separable sep t')
    (heq : t ++ (sep ++ r) = t' ++ (sep ++ r')) : t = t' ∧ r = r' := by
  have htext : t = t' := by
    rcases List.append_eq_append_iff.mp heq with ⟨a, rfl, ha⟩ | ⟨a, rfl, ha⟩
    · rw [ht'.eq_nil_of_append hsep ha, List.append_nil]
    · rw [ht.eq_nil_of_append hsep ha, List.append_nil]
  subst htext
  exact ⟨rfl, List.append_cancel_left (List.append_cancel_left heq)⟩

theorem Separable.intercalate_cons_ne_nil (h : Separable sep t) (ts : List (List α)) :
    sep.intercalate (t :: ts) ≠ [] := by
  cases ts with
  | nil => simpa using h.1
  | cons u us =>
    rw [List.intercalate_cons_cons, List.append_assoc]
    exact List.append_ne_nil_of_left_ne_nil h.1 _

/-- Separable texts are determined by their join. -/
theorem intercalate_inj (hsep : sep ≠ []) {ts ts' : List (List α)}
    (hts : ∀ t ∈ ts, Separable sep t) (hts' : ∀ t ∈ ts', Separable sep t)
    (heq : sep.intercalate ts = sep.intercalate ts') : ts = ts' := by
  induction ts generalizing ts' with
  | nil =>
    cases ts' with
    | nil => rfl
    | cons t' ts' =>
      exact absurd heq.symm ((hts' t' List.mem_cons_self).intercalate_cons_ne_nil ts')
  | cons t ts ih =>
    have ht := hts t List.mem_cons_self
    cases ts' with
    | nil => exact absurd heq (ht.intercalate_cons_ne_nil ts)
    | cons t' ts' =>
      have ht' := hts' t' List.mem_cons_self
      match ts, ts' with
      | [], [] => simpa using heq
      -- A text with a separator in it is not separable.
      | [], u' :: us' =>
        rw [List.intercalate_cons_cons, List.intercalate_singleton] at heq
        exact absurd ⟨t', sep.intercalate (u' :: us'), heq.symm⟩ ht.not_infix
      | u :: us, [] =>
        rw [List.intercalate_cons_cons, List.intercalate_singleton] at heq
        exact absurd ⟨t, sep.intercalate (u :: us), heq⟩ ht'.not_infix
      -- The first separators stand at the same place.
      | u :: us, u' :: us' =>
        rw [List.intercalate_cons_cons, List.intercalate_cons_cons, List.append_assoc,
          List.append_assoc] at heq
        obtain ⟨rfl, htail⟩ := append_sep_inj hsep ht ht' heq
        rw [ih (fun s hs => hts s (List.mem_cons_of_mem t hs))
          (fun s hs => hts' s (List.mem_cons_of_mem t hs)) htail]

end Lace.Library
