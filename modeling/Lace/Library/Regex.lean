import Mathlib.Computability.RegularExpressions

/-!
# Replacing a match at the end

Regular expressions as programs write them, over those of the language theory: words, character
classes, repetition. A match that has to reach the end of the text is replaced by nothing; the
search for it goes from left to right, so the longest matching end of the text goes.

## Main definitions

* `wordExpr`, `classExpr`, `plusExpr`: the expressions;
* `cutEnd`: the text without its longest matching end.

## Main results

* `cutEnd_eq_iff`: what is left in front of a match is the whole rest exactly if no longer end
  matches.
-/

namespace Lace.Library

open RegularExpression Computability

variable {α : Type*}

/-! ### The expressions -/

/-- Matches one word. -/
def wordExpr (w : List α) : RegularExpression α := w.foldr (fun a P => char a * P) 1

/-- Matches one symbol of a class. -/
def classExpr (cs : List α) : RegularExpression α := cs.foldr (fun a P => char a + P) 0

/-- Matches one repetition or more. -/
def plusExpr (P : RegularExpression α) : RegularExpression α := P * P.star

variable {P : RegularExpression α} {w x l b t : List α}

/-- A repetition is one match with more of them behind it. -/
theorem mem_plusExpr : x ∈ (plusExpr P).matches' ↔
    ∃ y ∈ P.matches', ∃ z ∈ P.star.matches', y ++ z = x := by
  rw [plusExpr, matches'_mul, Language.mem_mul]

/-- No match, or one repetition or more. -/
theorem mem_star_iff : x ∈ P.star.matches' ↔ x = [] ∨ x ∈ (plusExpr P).matches' := by
  rw [plusExpr, matches'_mul, matches'_star, ← Language.one_add_self_mul_kstar_eq_kstar,
    Language.mem_add, Language.mem_one, Language.one_add_self_mul_kstar_eq_kstar]

/-- What starts every match starts every repetition. -/
theorem head?_plusExpr {a : α} (hP : ∀ y ∈ P.matches', y.head? = some a)
    (hx : x ∈ (plusExpr P).matches') : x.head? = some a := by
  obtain ⟨y, hy, z, -, rfl⟩ := mem_plusExpr.mp hx
  have hhead := hP y hy
  rw [List.head?_append, hhead, Option.some_or]

/-- A repetition ends with a match. -/
theorem exists_suffix_plusExpr (hx : x ∈ (plusExpr P).matches') : ∃ y ∈ P.matches', y <:+ x := by
  rw [plusExpr, matches'_mul, matches'_star, Language.mem_mul] at hx
  obtain ⟨y, hy, z, hz, rfl⟩ := hx
  obtain ⟨L, rfl, hL⟩ := Language.mem_kstar.mp hz
  rcases List.eq_nil_or_concat L with rfl | ⟨L, u, rfl⟩
  · exact ⟨y, hy, by simp⟩
  · refine ⟨u, hL u (by simp), ?_⟩
    rw [List.concat_eq_append, List.flatten_append, List.flatten_singleton, ← List.append_assoc]
    exact List.suffix_append _ _

/-! ### The replacement -/

variable [DecidableEq α]

/-- The text without its longest end that matches. -/
def cutEnd (P : RegularExpression α) : List α → List α
  | [] => []
  | a :: l => if P.rmatch (a :: l) then [] else a :: cutEnd P l

/-- The end that goes is empty or matches, and no other matching end is longer. -/
theorem exists_cutEnd (P : RegularExpression α) (l : List α) :
    ∃ t, l = cutEnd P l ++ t ∧ (t = [] ∨ t ∈ P.matches') ∧
      ∀ u ∈ P.matches', u <:+ l → u.length ≤ t.length := by
  induction l with
  | nil => exact ⟨[], rfl, Or.inl rfl, fun u _ hu => hu.length_le⟩
  | cons a l ih =>
    rw [cutEnd]
    split_ifs with hmatch
    · exact ⟨a :: l, rfl, Or.inr ((rmatch_iff_matches' P _).mp hmatch), fun u _ hu => hu.length_le⟩
    · obtain ⟨t, hl, ht, hmax⟩ := ih
      refine ⟨t, by rw [List.cons_append, ← hl], ht, fun u hu hsuffix => ?_⟩
      rcases List.suffix_cons_iff.mp hsuffix with rfl | hsuffix
      · exact absurd ((rmatch_iff_matches' P _).mpr hu) hmatch
      · exact hmax u hu hsuffix

/-- In front of a match the rest is left exactly if no longer end matches. -/
theorem cutEnd_eq_iff (ht : t ∈ P.matches') :
    cutEnd P (b ++ t) = b ↔ ∀ b₁ b₂, b = b₁ ++ b₂ → b₂ ++ t ∈ P.matches' → b₂ = [] := by
  obtain ⟨u, hl, hu, hmax⟩ := exists_cutEnd P (b ++ t)
  have hle := hmax t ht (List.suffix_append b t)
  constructor
  · rintro heq b₁ b₂ rfl hmatch
    rw [heq] at hl
    obtain rfl := List.append_cancel_left hl
    have hshort := hmax _ hmatch ⟨b₁, (List.append_assoc _ _ _).symm⟩
    rw [List.length_append] at hshort
    exact List.eq_nil_of_length_eq_zero (by omega)
  · intro h
    -- The end that goes reaches over the match, so it is no longer than that.
    obtain ⟨b₂, hb⟩ : cutEnd P (b ++ t) <+: b := by
      refine List.prefix_of_prefix_length_le ⟨u, hl.symm⟩
        (List.prefix_append b t) ?_
      have hlen := congrArg List.length hl
      rw [List.length_append, List.length_append] at hlen
      omega
    have hboth : cutEnd P (b ++ t) ++ (b₂ ++ t) = cutEnd P (b ++ t) ++ u := by
      rw [← List.append_assoc, hb, ← hl]
    have hsplit : b₂ ++ t = u := List.append_cancel_left hboth
    rcases hu with rfl | hu
    · rw [(List.append_eq_nil_iff.mp hsplit).1, List.append_nil] at hb
      exact hb
    · rw [h _ b₂ hb.symm (hsplit ▸ hu), List.append_nil] at hb
      exact hb

end Lace.Library
