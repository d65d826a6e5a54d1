import Mathlib.Data.List.Nodup
import Mathlib.Data.List.Perm.Basic
import Mathlib.Tactic.ByContra

/-!
# First matches of a reordered list

Which elements a search for the first match can find when the list may be in any order.

## Main results

* `exists_perm_find?_eq`: any match is the first one in some order;
* `exists_perm_find?_eq_find?_eq`: so are any two matches that the first search tells apart;
* `find?_separates`: of two different first matches one is told apart;
* `find?_perm_of_unique`, `find?_key_perm`: a search with one match at most, or by a key that occurs
  once, finds the same in every order.
-/

namespace Lace.Library

variable {α : Type*} {p q : α → Bool} {l : List α} {x y : α}

section DecidableEq

variable [DecidableEq α]

/-- Some order puts a given match first. -/
theorem exists_perm_find?_eq (hx : x ∈ l) (hpx : p x = true) :
    ∃ l' : List α, l'.Perm l ∧ l'.find? p = some x :=
  ⟨x :: l.erase x, (List.perm_cons_erase hx).symm, List.find?_cons_of_pos hpx⟩

/-- Some order puts a given match of `p` and a given match of `q` first. -/
theorem exists_perm_find?_eq_find?_eq (hx : x ∈ l) (hpx : p x = true) (hy : y ∈ l)
    (hqy : q y = true) (hpy : p y = false) :
    ∃ l' : List α, l'.Perm l ∧ l'.find? p = some x ∧ l'.find? q = some y := by
  have hxy : x ≠ y := by
    rintro rfl
    rw [hpx] at hpy
    exact Bool.noConfusion hpy
  have hx' : x ∈ l.erase y := (List.mem_erase_of_ne hxy).mpr hx
  refine ⟨y :: x :: (l.erase y).erase x, ?_, ?_, List.find?_cons_of_pos hqy⟩
  · exact ((List.perm_cons_erase hx').symm.cons y).trans (List.perm_cons_erase hy).symm
  · rw [List.find?_cons_of_neg (by simp [hpy]), List.find?_cons_of_pos hpx]

end DecidableEq

/-- Two different elements cannot both be the first match of both searches. -/
theorem find?_separates (hx : l.find? p = some x) (hy : l.find? q = some y) (hxy : x ≠ y) :
    p y = false ∨ q x = false := by
  induction l with
  | nil => cases hx
  | cons z l ih =>
    by_cases hpz : p z = true
    · -- `x` comes first, so the search for `q` has passed it.
      rw [List.find?_cons_of_pos hpz] at hx
      obtain rfl := Option.some.inj hx
      right
      by_contra hqz
      rw [List.find?_cons_of_pos (by simpa using hqz)] at hy
      exact hxy (Option.some.inj hy)
    · rw [List.find?_cons_of_neg hpz] at hx
      by_cases hqz : q z = true
      · -- `y` comes first, so the search for `p` has passed it.
        rw [List.find?_cons_of_pos hqz] at hy
        obtain rfl := Option.some.inj hy
        left
        simpa using hpz
      · rw [List.find?_cons_of_neg hqz] at hy
        exact ih hx hy

/-- A search with one match at most finds the same in every order. -/
theorem find?_perm_of_unique {l' : List α} (hperm : l'.Perm l)
    (hunique : ∀ x ∈ l, ∀ y ∈ l, p x = true → p y = true → x = y) : l'.find? p = l.find? p := by
  cases hx : l'.find? p with
  | none =>
    rw [eq_comm, List.find?_eq_none]
    exact fun y hy => List.find?_eq_none.mp hx y (hperm.mem_iff.mpr hy)
  | some x =>
    have hmem : x ∈ l := hperm.mem_iff.mp (List.mem_of_find?_eq_some hx)
    obtain ⟨y, hy⟩ : ∃ y, l.find? p = some y := by
      rw [← Option.isSome_iff_exists, List.find?_isSome]
      exact ⟨x, hmem, List.find?_some hx⟩
    rw [hy, hunique x hmem y (List.mem_of_find?_eq_some hy) (List.find?_some hx)
      (List.find?_some hy)]

/-- So does a search by a key that occurs once. -/
theorem find?_key_perm {κ : Type*} [DecidableEq κ] {key : α → κ} {l' : List α}
    (hl : (l.map key).Nodup) (hperm : l'.Perm l) (k : κ) :
    (l'.find? fun y => key y = k) = l.find? fun y => key y = k := by
  refine find?_perm_of_unique hperm fun x hx y hy hxk hyk => ?_
  rw [decide_eq_true_eq] at hxk hyk
  exact List.inj_on_of_nodup_map hl hx hy (hxk.trans hyk.symm)

end Lace.Library
