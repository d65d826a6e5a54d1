import Mathlib.Data.List.Nodup
import Mathlib.Data.List.Perm.Basic
import Mathlib.Logic.Function.Basic
import Mathlib.Order.Nat

/-!
# First come, first served

Jobs choose among scored candidates and are served in order: a candidate takes the first job that
chooses it. The choice is the head of a sort by score, which may leave candidates of the same score
in any order.

## Main definitions

* `ScoreSort`, `ScoreSort.best`: a sort by descending score, and the candidate it puts first;
* `IsBest`: the candidates with the highest score;
* `stableSort`: the sort that keeps the order of equal scores;
* `serve`: the jobs that the candidates take.

## Main results

* `ScoreSort.isBest_of_best`: the candidate that is put first has the highest score;
* `stableSort_best_ne`: the stable sort puts no candidate before one of the same score;
* `serve_eq_find?`: a candidate takes the first job that chooses it.
-/

namespace Lace.Library

variable {ι α : Type*}

/-! ### The choice -/

/-- A sort of scored candidates by descending score. Which of two equal scores comes first is
open. -/
structure ScoreSort (α : Type*) where
  /-- The sorted list. -/
  sort : List (α × ℕ) → List (α × ℕ)
  /-- Nothing is lost. -/
  perm : ∀ l, (sort l).Perm l
  /-- The scores do not rise. -/
  sorted : ∀ l, (sort l).Pairwise fun a b => b.2 ≤ a.2

/-- A candidate with the highest score. -/
def IsBest (l : List (α × ℕ)) (a : α) : Prop := ∃ x ∈ l, x.1 = a ∧ ∀ y ∈ l, y.2 ≤ x.2

variable {l l' : List (α × ℕ)} {a : α} {x y : α × ℕ}

theorem IsBest.perm (hperm : l'.Perm l) : IsBest l' a ↔ IsBest l a := by
  simp only [IsBest, hperm.mem_iff]

namespace ScoreSort

variable (s : ScoreSort α)

/-- The candidate that is put first. -/
def best (l : List (α × ℕ)) : Option α := (s.sort l).head?.map Prod.fst

variable {s}

theorem head?_mem (h : (s.sort l).head? = some x) : x ∈ l ∧ ∀ y ∈ l, y.2 ≤ x.2 := by
  obtain ⟨rest, hrest⟩ := List.head?_eq_some_iff.mp h
  have hperm := s.perm l
  have hsorted := s.sorted l
  rw [hrest] at hperm hsorted
  refine ⟨hperm.mem_iff.mp List.mem_cons_self, fun y hy => ?_⟩
  rcases List.mem_cons.mp (hperm.mem_iff.mpr hy) with rfl | hy
  · exact le_rfl
  · exact List.rel_of_pairwise_cons hsorted hy

/-- It has the highest score. -/
theorem isBest_of_best (h : s.best l = some a) : IsBest l a := by
  obtain ⟨x, hx, rfl⟩ := Option.map_eq_some_iff.mp h
  obtain ⟨hmem, hmax⟩ := head?_mem hx
  exact ⟨x, hmem, rfl, hmax⟩

/-- There is one unless there are no candidates. -/
theorem exists_best (h : l ≠ []) : ∃ a, s.best l = some a := by
  have hne : s.sort l ≠ [] := fun hnil => h (List.nil_perm.mp (hnil ▸ s.perm l))
  exact ⟨_, by rw [best, List.head?_eq_some_head hne, Option.map_some]⟩

/-- The only candidate with the highest score is put first. -/
theorem best_eq_of_unique (h : IsBest l a) (hunique : ∀ b, IsBest l b → b = a) :
    s.best l = some a := by
  obtain ⟨x, hx, -⟩ := h
  obtain ⟨b, hb⟩ := s.exists_best (List.ne_nil_of_mem hx)
  rw [hb, hunique b (isBest_of_best hb)]

end ScoreSort

/-- The comparison by descending score. -/
def scoreLE (x y : α × ℕ) : Bool := y.2 ≤ x.2

theorem scoreLE_iff : scoreLE x y = true ↔ y.2 ≤ x.2 := decide_eq_true_iff

theorem scoreLE_trans (x y z : α × ℕ) (hxy : scoreLE x y = true) (hyz : scoreLE y z = true) :
    scoreLE x z = true :=
  scoreLE_iff.mpr ((scoreLE_iff.mp hyz).trans (scoreLE_iff.mp hxy))

theorem scoreLE_total (x y : α × ℕ) : (scoreLE x y || scoreLE y x) = true := by
  rw [Bool.or_eq_true, scoreLE_iff, scoreLE_iff]
  exact le_total y.2 x.2

/-- The sort that keeps the order of equal scores. -/
def stableSort (α : Type*) : ScoreSort α where
  sort l := l.mergeSort scoreLE
  perm l := List.mergeSort_perm l _
  sorted l := (List.pairwise_mergeSort scoreLE_trans scoreLE_total l).imp scoreLE_iff.mp

/-- A candidate behind one whose score is no lower is not put first. -/
theorem stableSort_best_ne (hl : (l.map Prod.fst).Nodup) (hsub : [x, y].Sublist l)
    (hle : y.2 ≤ x.2) : (stableSort α).best l ≠ some y.1 := by
  intro h
  have hsorted : [x, y].Sublist ((stableSort α).sort l) :=
    List.pair_sublist_mergeSort scoreLE_trans scoreLE_total (scoreLE_iff.mpr hle) hsub
  have hnodup : (((stableSort α).sort l).map Prod.fst).Nodup :=
    (((stableSort α).perm l).map Prod.fst).nodup_iff.mpr hl
  obtain ⟨z, hz, hzy⟩ := Option.map_eq_some_iff.mp h
  obtain ⟨rest, hrest⟩ := List.head?_eq_some_iff.mp hz
  rw [hrest] at hsorted hnodup
  -- The candidate would come again behind the first place.
  have hy : y ∈ rest := by
    cases hsorted with
    | cons _ h => exact h.subset (by simp)
    | cons_cons _ h => exact h.subset (by simp)
  rw [List.map_cons, List.nodup_cons] at hnodup
  exact hnodup.1 (List.mem_map.mpr ⟨y, hy, hzy.symm⟩)

/-! ### The service -/

section Serve

variable [DecidableEq α] (choose : ι → Option α)

/-- A job goes to the candidate that it chooses, unless that one has a job. -/
def serveOne (taken : α → Option ι) (i : ι) : α → Option ι :=
  match choose i with
  | some a => if taken a = none then Function.update taken a (some i) else taken
  | none => taken

/-- The jobs are served in order. -/
def serve (jobs : List ι) : α → Option ι := jobs.foldl (serveOne choose) fun _ => none

variable {choose} {taken : α → Option ι} {i : ι}

theorem serveOne_apply :
    serveOne choose taken i a = (taken a).or (if choose i = some a then some i else none) := by
  rw [serveOne]
  cases hi : choose i with
  | none => simp
  | some b =>
    by_cases hab : b = a
    · subst hab
      cases htaken : taken b <;> simp [htaken]
    · have hother : (if taken b = none then Function.update taken b (some i) else taken) a =
          taken a := by
        split_ifs
        · exact Function.update_of_ne (Ne.symm hab) _ _
        · rfl
      simp only [hother, Option.some.injEq, hab, if_false, Option.or_none]

/-- A candidate takes the first job that chooses it. -/
theorem serve_eq_find? (jobs : List ι) (a : α) :
    serve choose jobs a = jobs.find? fun i => choose i = some a := by
  have hfold : ∀ taken : α → Option ι, jobs.foldl (serveOne choose) taken a =
      (taken a).or (jobs.find? fun i => choose i = some a) := by
    induction jobs with
    | nil => simp
    | cons i jobs ih =>
      intro taken
      rw [List.foldl_cons, ih, serveOne_apply, Option.or_assoc, List.find?_cons]
      by_cases hi : choose i = some a <;> simp [hi]
  exact hfold _

end Serve

end Lace.Library
