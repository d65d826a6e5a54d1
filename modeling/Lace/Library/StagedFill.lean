import Mathlib.Data.List.Nodup
import Mathlib.Data.Finset.Card
import Lace.Library.Leaders

/-!
# Filling a bounded list in stages

A list is filled up to a cap from one source after the other. A later source that still contains
what an earlier one put into the list puts it there again.

## Main definitions

* `fill`: one stage.

## Main results

* `length_fill`: the list has as many elements as the cap and the source allow;
* `length_add_length_filter`: what is left of a source;
* `nodup_fill_fill_iff`: a preferred part of a source, and then the source: when nothing is put into
  the list twice;
* `length_leaders_le_card`: there are no more leaders than keys.
-/

namespace Lace.Library

variable {α κ : Type*} {cap : ℕ} {sel src : List α} {x : α}

/-- Elements of the source are added up to the cap. -/
def fill (cap : ℕ) (sel src : List α) : List α :=
  sel ++ src.take (cap - sel.length)

theorem length_fill (h : sel.length ≤ cap) :
    (fill cap sel src).length = min cap (sel.length + src.length) := by
  rw [fill, List.length_append, List.length_take]
  omega

theorem mem_fill_of_mem (h : x ∈ sel) : x ∈ fill cap sel src := List.mem_append_left _ h

theorem mem_or_mem_of_mem_fill (h : x ∈ fill cap sel src) : x ∈ sel ∨ x ∈ src :=
  (List.mem_append.mp h).imp_right List.mem_of_mem_take

/-- A full list stays as it is. -/
theorem fill_eq_self (h : cap ≤ sel.length) : fill cap sel src = sel := by
  rw [fill, Nat.sub_eq_zero_of_le h, List.take_zero, List.append_nil]

theorem nodup_fill_iff (hsel : sel.Nodup) (hsrc : src.Nodup) :
    (fill cap sel src).Nodup ↔ ∀ x ∈ src.take (cap - sel.length), x ∉ sel := by
  rw [fill, List.nodup_append]
  constructor
  · rintro ⟨-, -, hdisj⟩ x hx hsel'
    exact hdisj x hsel' x hx rfl
  · intro h
    refine ⟨hsel, hsrc.sublist (List.take_sublist _ _), fun x hx y hy hxy => ?_⟩
    exact h y hy (hxy ▸ hx)

/-- The list is filled with the preferred elements of a source, and then from the source itself: an
element is added twice unless the preferred ones fill the list, or none of them is among the
elements that are added last. -/
theorem nodup_fill_fill_iff {p : α → Bool} (hcap : sel.length ≤ cap) (hsel : sel.Nodup)
    (hsrc : src.Nodup) (hdisj : ∀ x ∈ src, x ∉ sel) :
    (fill cap (fill cap sel (src.filter p)) src).Nodup ↔
      cap ≤ sel.length + (src.filter p).length ∨
        ∀ x ∈ src.take (cap - (sel.length + (src.filter p).length)), p x = false := by
  have hfirst : (fill cap sel (src.filter p)).Nodup :=
    (nodup_fill_iff hsel (hsrc.filter p)).mpr fun x hx =>
      hdisj x (List.mem_of_mem_filter (List.mem_of_mem_take hx))
  by_cases hfull : cap ≤ sel.length + (src.filter p).length
  · rw [fill_eq_self (by rw [length_fill hcap, min_eq_left hfull])]
    exact iff_of_true hfirst (Or.inl hfull)
  · -- All preferred elements are in the list.
    have hall : fill cap sel (src.filter p) = sel ++ src.filter p := by
      rw [fill, List.take_of_length_le (by omega)]
    rw [nodup_fill_iff hfirst hsrc, hall, List.length_append, or_iff_right hfull]
    refine forall₂_congr fun x hx => ?_
    have hmem := List.mem_of_mem_take hx
    rw [List.mem_append, not_or, List.mem_filter, and_iff_right (hdisj x hmem), not_and]
    simp [hmem]

/-- What is chosen of a list, and what is not, make up the list. -/
theorem length_add_length_filter {l s : List α} {p : α → Bool} (hl : l.Nodup) (hs : s.Nodup)
    (hsub : s ⊆ l) (hp : ∀ x, p x = true ↔ x ∉ s) :
    s.length + (l.filter p).length = l.length := by
  have hperm : (l.filter fun x => !p x).Perm s := by
    refine (List.perm_ext_iff_of_nodup (hl.filter _) hs).mpr fun x => ?_
    rw [List.mem_filter, Bool.not_eq_true', ← Bool.not_eq_true, hp, not_not]
    exact and_iff_right_of_imp fun hx => hsub hx
  rw [← hperm.length_eq, Nat.add_comm]
  exact (List.length_eq_length_filter_add p).symm

section Leaders

variable [DecidableEq κ] (key : α → κ) (l : List α)

theorem nodup_map_leaders : ((leaders (fun f x => key f = key x) l).map key).Nodup := by
  induction l using List.reverseRecOn with
  | nil => exact List.nodup_nil
  | append_singleton l x ih =>
    rw [leaders_concat]
    split_ifs with hany
    · exact ih
    · rw [List.map_append, List.map_singleton, List.nodup_append]
      refine ⟨ih, List.nodup_singleton _, fun k hk k' hk' hkk' => hany ?_⟩
      obtain ⟨f, hf, rfl⟩ := List.mem_map.mp hk
      obtain rfl := List.mem_singleton.mp hk'
      exact List.any_eq_true.mpr ⟨f, hf, by simpa using hkk'⟩

/-- There are no more leaders than keys. -/
theorem length_leaders_le_card :
    (leaders (fun f x => key f = key x) l).length ≤ (l.map key).toFinset.card := by
  rw [← List.length_map (f := key), ← List.toFinset_card_of_nodup (nodup_map_leaders key l)]
  refine Finset.card_le_card fun k hk => ?_
  obtain ⟨f, hf, rfl⟩ := List.mem_map.mp (List.mem_toFinset.mp hk)
  exact List.mem_toFinset.mpr (List.mem_map_of_mem (mem_of_mem_leaders hf))

/-- Every element has a leader with its key. -/
theorem exists_leader_key_eq [DecidableEq α] (hx : x ∈ l) :
    ∃ f ∈ leaders (fun f x => key f = key x) l, key f = key x := by
  obtain ⟨f, hf⟩ := exists_leaderIn (r := fun f x => decide (key f = key x)) hx
  refine ⟨f, List.mem_of_find?_eq_some hf, ?_⟩
  have hlead := List.find?_some hf
  rw [Bool.or_eq_true, decide_eq_true_eq, decide_eq_true_eq] at hlead
  rcases hlead with rfl | heq
  · rfl
  · exact heq

end Leaders

end Lace.Library
