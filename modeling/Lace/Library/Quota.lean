import Mathlib.Data.List.Induction
import Mathlib.Logic.Function.Basic

/-!
# Selection under quotas

A list is read once, from the best element to the worst. A forced element is kept. Any other one is
charged: it is kept unless a cap on all charged elements, or a cap on those of its class, is filled.

## Main definitions

* `Quota`: the forced elements, the classes and the caps;
* `Quota.run`: the selection;
* `Quota.Filled`: a cap is filled by elements that came before;
* `Quota.Inv`: what holds after each element.

## Main result

* `Quota.inv_run`: what holds of the selection.
-/

namespace Lace.Library

variable {α κ : Type*}

/-- What is kept, and how much of it counts. -/
structure Quota (α κ : Type*) where
  /-- The element is kept whatever the caps are. -/
  forced : α → Bool
  /-- The class of an element. -/
  cls : α → κ
  /-- How many elements are kept that are not forced. -/
  total : ℕ
  /-- How many of them in one class. -/
  perClass : ℕ

/-- The elements that are kept so far, and the counters. -/
structure QuotaState (α κ : Type*) where
  /-- The elements that are kept. -/
  kept : List α
  /-- How many count for a class. -/
  used : κ → ℕ
  /-- How many count for all. -/
  charged : ℕ

/-- Nothing is kept yet. -/
def QuotaState.start : QuotaState α κ := ⟨[], fun _ => 0, 0⟩

namespace Quota

variable [DecidableEq κ] (Q : Quota α κ)

/-- Keep an element, or leave it out. -/
def step (s : QuotaState α κ) (x : α) : QuotaState α κ :=
  if Q.forced x then { s with kept := s.kept ++ [x] }
  else if Q.total ≤ s.charged then s
  else if Q.perClass ≤ s.used (Q.cls x) then s
  else
    { kept := s.kept ++ [x]
      used := Function.update s.used (Q.cls x) (s.used (Q.cls x) + 1)
      charged := s.charged + 1 }

/-- Read a list from the front. -/
def run (l : List α) : QuotaState α κ := l.foldl Q.step QuotaState.start

/-- The elements that count for a class. -/
def chargedTo (k : κ) (x : α) : Bool := !Q.forced x && Q.cls x = k

variable (R : α → α → Prop) [DecidableRel R]

/-- A cap that concerns an element is filled by elements that are related to it. -/
def Filled (kept : List α) (x : α) : Prop :=
  (Q.total ≤ kept.countP fun y => !Q.forced y && R y x) ∨
    Q.perClass ≤ kept.countP fun y => Q.chargedTo (Q.cls x) y && R y x

/-- What holds when a part of the list is read. -/
structure Inv (done : List α) (s : QuotaState α κ) : Prop where
  /-- Only elements of the list are kept, in their order. -/
  sublist : s.kept.Sublist done
  /-- The forced ones are. -/
  forced : ∀ x ∈ done, Q.forced x → x ∈ s.kept
  /-- The counter of all elements is exact. -/
  charged : s.charged = s.kept.countP fun x => !Q.forced x
  /-- The counters of the classes are exact. -/
  used : ∀ k, s.used k = s.kept.countP (Q.chargedTo k)
  /-- The cap on all elements holds. -/
  charged_le : s.charged ≤ Q.total
  /-- The cap on a class holds. -/
  used_le : ∀ k, s.used k ≤ Q.perClass
  /-- An element that is left out met a cap that was filled. -/
  dropped : ∀ x ∈ done, x ∈ s.kept ∨ Q.Filled R s.kept x

variable {Q R} {kept done : List α} {x y : α} {s : QuotaState α κ}

theorem chargedTo_iff {k : κ} : Q.chargedTo k x = true ↔ Q.forced x = false ∧ Q.cls x = k := by
  simp [chargedTo]

/-- A cap that is filled stays filled. -/
theorem Filled.append (h : Q.Filled R kept x) (l : List α) : Q.Filled R (kept ++ l) x := by
  unfold Filled at h ⊢
  rw [List.countP_append, List.countP_append]
  exact h.imp Nat.le_add_right_of_le Nat.le_add_right_of_le

/-- Where all elements are related to `x`, the relation does not change a count. -/
theorem countP_and_eq (hR : ∀ y ∈ kept, R y x) (p : α → Bool) :
    kept.countP (fun y => p y && R y x) = kept.countP p := by
  refine List.countP_congr fun y hy => ?_
  simp [hR y hy]

/-- One more element is kept. -/
theorem dropped_append (h : ∀ y ∈ done, y ∈ kept ∨ Q.Filled R kept y) :
    ∀ y ∈ done ++ [x], y ∈ kept ++ [x] ∨ Q.Filled R (kept ++ [x]) y := by
  intro y hy
  rcases List.mem_append.mp hy with hy | hy
  · exact (h y hy).imp (List.mem_append_left _) fun hfilled => hfilled.append [x]
  · exact Or.inl (List.mem_append_right _ hy)

namespace Inv

theorem start : Q.Inv R [] QuotaState.start where
  sublist := List.Sublist.refl []
  forced _ hx := absurd hx List.not_mem_nil
  charged := rfl
  used _ := rfl
  charged_le := Nat.zero_le _
  used_le _ := Nat.zero_le _
  dropped _ hx := absurd hx List.not_mem_nil

/-- A forced element is kept. -/
theorem force (h : Q.Inv R done s) (hx : Q.forced x = true) :
    Q.Inv R (done ++ [x]) { s with kept := s.kept ++ [x] } where
  sublist := h.sublist.append (List.Sublist.refl [x])
  forced y hy hforced := by
    rcases List.mem_append.mp hy with hy | hy
    · exact List.mem_append_left _ (h.forced y hy hforced)
    · exact List.mem_append_right _ hy
  charged := by
    show s.charged = (s.kept ++ [x]).countP _
    rw [List.countP_append, ← h.charged]
    simp [hx]
  used k := by
    show s.used k = (s.kept ++ [x]).countP _
    rw [List.countP_append, ← h.used k]
    simp [chargedTo, hx]
  charged_le := h.charged_le
  used_le := h.used_le
  dropped := dropped_append h.dropped

/-- An element that meets a filled cap is left out. -/
theorem drop (h : Q.Inv R done s) (hx : Q.forced x = false) (hfilled : Q.Filled R s.kept x) :
    Q.Inv R (done ++ [x]) s where
  sublist := h.sublist.trans (List.sublist_append_left done [x])
  forced y hy hforced := by
    rcases List.mem_append.mp hy with hy | hy
    · exact h.forced y hy hforced
    · rw [List.mem_singleton.mp hy, hx] at hforced
      exact absurd hforced Bool.false_ne_true
  charged := h.charged
  used := h.used
  charged_le := h.charged_le
  used_le := h.used_le
  dropped y hy := by
    rcases List.mem_append.mp hy with hy | hy
    · exact h.dropped y hy
    · rw [List.mem_singleton.mp hy]
      exact Or.inr hfilled

/-- An element for which there is room is kept, and counts. -/
theorem charge (h : Q.Inv R done s) (hx : Q.forced x = false) (htotal : s.charged < Q.total)
    (hclass : s.used (Q.cls x) < Q.perClass) :
    Q.Inv R (done ++ [x])
      { kept := s.kept ++ [x]
        used := Function.update s.used (Q.cls x) (s.used (Q.cls x) + 1)
        charged := s.charged + 1 } where
  sublist := h.sublist.append (List.Sublist.refl [x])
  forced y hy hforced := by
    rcases List.mem_append.mp hy with hy | hy
    · exact List.mem_append_left _ (h.forced y hy hforced)
    · exact List.mem_append_right _ hy
  charged := by
    show s.charged + 1 = (s.kept ++ [x]).countP _
    rw [List.countP_append, ← h.charged]
    simp [hx]
  used k := by
    show Function.update s.used _ _ k = (s.kept ++ [x]).countP _
    rw [List.countP_append, ← h.used k]
    -- Only the class of the element has one more.
    by_cases hk : k = Q.cls x
    · subst hk
      simp [chargedTo, hx]
    · simp [chargedTo, Function.update_of_ne hk, Ne.symm hk]
  charged_le := htotal
  used_le k := by
    show Function.update s.used _ _ k ≤ Q.perClass
    by_cases hk : k = Q.cls x
    · subst hk
      rw [Function.update_self]
      exact hclass
    · rw [Function.update_of_ne hk]
      exact h.used_le k
  dropped := dropped_append h.dropped

/-- A step keeps the invariant, if what was read is related to the element that is read now. -/
theorem step (h : Q.Inv R done s) (hR : ∀ y ∈ done, R y x) :
    Q.Inv R (done ++ [x]) (Q.step s x) := by
  have hkept : ∀ y ∈ s.kept, R y x := fun y hy => hR y (h.sublist.subset hy)
  unfold Quota.step
  split
  next hx => exact h.force hx
  next hx =>
    rw [Bool.not_eq_true] at hx
    split
    next htotal =>
      refine h.drop hx (Or.inl ?_)
      rw [countP_and_eq hkept, ← h.charged]
      exact htotal
    next htotal =>
      split
      next hclass =>
        refine h.drop hx (Or.inr ?_)
        rw [countP_and_eq hkept, ← h.used]
        exact hclass
      next hclass => exact h.charge hx (Nat.lt_of_not_le htotal) (Nat.lt_of_not_le hclass)

end Inv

/-- What holds of the selection from a list in which each element is related to those behind it. -/
theorem inv_run {l : List α} (hl : l.Pairwise R) : Q.Inv R l (Q.run l) := by
  induction l using List.reverseRecOn with
  | nil => exact Inv.start
  | append_singleton l x ih =>
    obtain ⟨hfront, -, hlast⟩ := List.pairwise_append.mp hl
    rw [run, List.foldl_append]
    exact (ih hfront).step fun y hy => hlast y hy x List.mem_cons_self

end Quota

end Lace.Library
