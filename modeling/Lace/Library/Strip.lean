import Mathlib.Data.List.Basic
import Mathlib.Data.List.Infix

/-!
# Stripping prefixes

A text loses a prefix of a table as long as it starts with one and has more behind it. Where no
entry of the table is the beginning of another one, the order of the table plays no role: the text
is a chain of entries in front of what is left, in one way only.

A search for the last place at which a pattern occurs gives what stands behind the pattern.

## Main definitions

* `stripOnce`, `stripAll`: one round, and all rounds;
* `Bare`: nothing can be stripped;
* `afterLast`: what stands behind the last occurrence of a pattern.

## Main results

* `stripAll_eq_self_iff`: the text is left alone exactly if it is bare;
* `exists_chain`, `stripAll_flatten`: what is left is the bare text behind a chain of entries;
* `not_infix_of_afterLast`: the pattern does not occur behind its last occurrence.
-/

namespace Lace.Library

variable {α : Type*} [DecidableEq α] (table : List (List α))

/-! ### Prefixes of a table -/

/-- No entry is the beginning of another one. -/
def PrefixFree : Prop := ∀ p ∈ table, ∀ q ∈ table, p <+: q → p = q

instance : Decidable (PrefixFree table) :=
  inferInstanceAs (Decidable (∀ p ∈ table, ∀ q ∈ table, p <+: q → p = q))

/-- The text starts with no entry that has something behind it. -/
def Bare (l : List α) : Prop := ∀ p ∈ table, ∀ x, l = p ++ x → x = []

/-- The text without the first entry of the table that it starts with, if there is more behind. -/
def stripOnce (l : List α) : Option (List α) :=
  (table.find? fun p => p.length < l.length && p.isPrefixOf l).map fun p => l.drop p.length

variable {table} {l x y : List α}

theorem exists_of_stripOnce (h : stripOnce table l = some x) :
    ∃ p ∈ table, l = p ++ x ∧ x ≠ [] := by
  obtain ⟨p, hfind, rfl⟩ := Option.map_eq_some_iff.mp h
  have htest := List.find?_some hfind
  rw [Bool.and_eq_true, decide_eq_true_eq, List.isPrefixOf_iff_prefix] at htest
  obtain ⟨hlt, y, rfl⟩ := htest
  refine ⟨p, List.mem_of_find?_eq_some hfind, by rw [List.drop_left], ?_⟩
  rw [List.drop_left]
  rintro rfl
  simp at hlt

/-- Nothing is stripped exactly from a bare text. -/
theorem stripOnce_eq_none : stripOnce table l = none ↔ Bare table l := by
  rw [stripOnce, Option.map_eq_none_iff, List.find?_eq_none]
  constructor
  · rintro h p hp x rfl
    by_contra hx
    apply h p hp
    rw [Bool.and_eq_true, decide_eq_true_eq, List.isPrefixOf_iff_prefix, List.length_append]
    exact ⟨Nat.lt_add_of_pos_right (List.length_pos_iff.mpr hx), List.prefix_append p x⟩
  · intro h p hp htest
    rw [Bool.and_eq_true, decide_eq_true_eq, List.isPrefixOf_iff_prefix] at htest
    obtain ⟨hlt, x, rfl⟩ := htest
    rw [h p hp x rfl, List.append_nil] at hlt
    exact Nat.lt_irrefl _ hlt

/-- An entry with more behind it is stripped, if no other entry can be. -/
theorem stripOnce_append (hfree : PrefixFree table) {p : List α} (hp : p ∈ table) (hx : x ≠ []) :
    stripOnce table (p ++ x) = some x := by
  cases h : stripOnce table (p ++ x) with
  | none => exact absurd (stripOnce_eq_none.mp h p hp x rfl) hx
  | some y =>
    obtain ⟨q, hq, heq, -⟩ := exists_of_stripOnce h
    -- Two beginnings of one text are comparable.
    have hpq : p = q := by
      rcases List.prefix_or_prefix_of_prefix (List.prefix_append p x)
        (heq ▸ List.prefix_append q y) with hpre | hpre
      · exact hfree p hp q hq hpre
      · exact (hfree q hq p hp hpre).symm
    rw [← hpq] at heq
    rw [List.append_cancel_left heq]

/-- Strip as long as something can be stripped. -/
def stripAll (table : List (List α)) (htable : [] ∉ table) (l : List α) : List α :=
  match _h : stripOnce table l with
  | some l' => stripAll table htable l'
  | none => l
termination_by l.length
decreasing_by
  obtain ⟨p, hp, rfl, -⟩ := exists_of_stripOnce _h
  have hpos : 0 < p.length := List.length_pos_iff.mpr fun hnil => htable (hnil ▸ hp)
  rw [List.length_append]
  omega

variable {htable : [] ∉ table}

theorem stripAll_of_some (h : stripOnce table l = some x) :
    stripAll table htable l = stripAll table htable x := by
  rw [stripAll]
  split
  · rename_i y hy
    rw [h] at hy
    rw [Option.some.inj hy]
  · rename_i hnone
    rw [h] at hnone
    cases hnone

theorem stripAll_of_bare (h : Bare table l) : stripAll table htable l = l := by
  rw [stripAll]
  split
  · rename_i y hy
    rw [stripOnce_eq_none.mpr h] at hy
    cases hy
  · rfl

/-- A chain of entries stands in front of what is left, which is bare. -/
theorem exists_chain (table : List (List α)) (htable : [] ∉ table) (l : List α) :
    ∃ ps : List (List α), (∀ p ∈ ps, p ∈ table) ∧ l = ps.flatten ++ stripAll table htable l ∧
      Bare table (stripAll table htable l) := by
  fun_induction stripAll table htable l with
  | case1 l l' h ih =>
    obtain ⟨p, hp, hl, -⟩ := exists_of_stripOnce h
    obtain ⟨ps, hps, hl', hbare⟩ := ih
    refine ⟨p :: ps, List.forall_mem_cons.mpr ⟨hp, hps⟩, ?_, hbare⟩
    rw [List.flatten_cons, List.append_assoc, ← hl']
    exact hl
  | case2 l h => exact ⟨[], by simp, rfl, stripOnce_eq_none.mp h⟩

/-- What is left is a part of the text. -/
theorem stripAll_suffix : stripAll table htable l <:+ l := by
  obtain ⟨ps, -, hl, -⟩ := exists_chain table htable l
  exact ⟨ps.flatten, hl.symm⟩

/-- A text is left alone exactly if it is bare. -/
theorem stripAll_eq_self_iff : stripAll table htable l = l ↔ Bare table l := by
  constructor
  · intro h
    obtain ⟨-, -, -, hbare⟩ := exists_chain table htable l
    rwa [h] at hbare
  · exact stripAll_of_bare

/-- A chain of entries is stripped, if there is something bare behind it. -/
theorem stripAll_flatten (hfree : PrefixFree table) {ps : List (List α)}
    (hps : ∀ p ∈ ps, p ∈ table) (hx : x ≠ []) (hbare : Bare table x) :
    stripAll table htable (ps.flatten ++ x) = x := by
  induction ps with
  | nil => exact stripAll_of_bare hbare
  | cons p ps ih =>
    obtain ⟨hp, hps⟩ := List.forall_mem_cons.mp hps
    have hstep : stripOnce table (p ++ (ps.flatten ++ x)) = some (ps.flatten ++ x) :=
      stripOnce_append hfree hp (List.append_ne_nil_of_right_ne_nil _ hx)
    rw [List.flatten_cons, List.append_assoc, stripAll_of_some hstep, ih hps]

/-! ### The last occurrence -/

/-- What stands behind the last occurrence of a pattern. -/
def afterLast (sep : List α) : List α → Option (List α)
  | [] => none
  | a :: l =>
    match afterLast sep l with
    | some x => some x
    | none => if sep.isPrefixOf (a :: l) then some ((a :: l).drop sep.length) else none

variable {sep : List α}

/-- Nothing is found exactly if the pattern does not occur. -/
theorem afterLast_eq_none (hsep : sep ≠ []) : afterLast sep l = none ↔ ¬sep <:+: l := by
  induction l with
  | nil => simpa [afterLast] using hsep
  | cons a l ih =>
    rw [afterLast, List.infix_cons_iff, not_or]
    cases h : afterLast sep l with
    | some x =>
      rw [h] at ih
      simpa using fun _ => not_not.mp (mt ih.mpr (Option.some_ne_none x))
    | none =>
      rw [h] at ih
      simp [ih.mp rfl]

theorem suffix_of_afterLast (h : afterLast sep l = some x) : x <:+ l := by
  induction l with
  | nil => cases h
  | cons a l ih =>
    rw [afterLast] at h
    split at h
    · rename_i y hy
      exact (ih (hy.trans h)).trans (List.suffix_cons a l)
    · split_ifs at h
      rw [← Option.some.inj h]
      exact List.drop_suffix _ _

/-- The pattern does not occur behind its last occurrence. -/
theorem not_infix_of_afterLast (hsep : sep ≠ []) (h : afterLast sep l = some x) : ¬sep <:+: x := by
  induction l with
  | nil => cases h
  | cons a l ih =>
    rw [afterLast] at h
    split at h
    · rename_i y hy
      exact ih (hy.trans h)
    · rename_i hnone
      split_ifs at h with hpre
      -- What is left is a part of the rest, in which the pattern does not occur.
      have hpos : 0 < sep.length := List.length_pos_iff.mpr hsep
      have hrest : x <:+ l := by
        rw [← Option.some.inj h, ← Nat.succ_pred_eq_of_pos hpos, List.drop_succ_cons]
        exact List.drop_suffix _ _
      exact fun hx => (afterLast_eq_none hsep).mp hnone (hx.trans hrest.isInfix)

end Lace.Library
