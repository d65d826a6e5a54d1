import Mathlib.Data.Finset.Sort
import Lace.Library.Quota
import Lace.PhaseB.BudgetedSessions

/-!
# The surface budget

On a huge surface the objects that triage keeps are thinned out. They are read by their priority.
Objects with a free operation, a list mutation or a race with themselves stay; of the others only
so many stay, in all and for each set of threads.

## Main definitions

* `SurfaceBudget.applyCostFirstSurfaceBudget`: the objects that stay;
* `SurfaceBudget.SafeSelection`: what may be left out, and why.

## Main result

* `SurfaceBudget.safeSelection`: the budget is a safe selection.
-/

namespace Lace.PhaseB

open Library

/-- `forceKeepObject`: the objects that no budget drops. -/
def forceKeepObject (o : RatedObject) : Bool :=
  o.hasFreeOperation || o.hasListMutation || o.isSelfRace

/-- What `applyCostFirstSurfaceBudget` reads besides the objects that are kept. -/
structure SurfaceBudget where
  /-- `surface`. -/
  surface : VulnerabilitySurface
  /-- `flowPrior`. -/
  flowPrior : FlowPrior
  /-- `LACE_SURFACE_GLOBAL_CAP`. -/
  globalCapVar : Option ℤ
  /-- `LACE_SURFACE_PER_THREADSET_CAP`. -/
  perThreadSetCapVar : Option ℤ
  /-- `LACE_DISABLE_SURFACE_BUDGET`, if it is set. -/
  disableVar : Option (List Char)

namespace SurfaceBudget

variable (B : SurfaceBudget)

/-- The positions of the objects. -/
abbrev Index := Fin B.surface.sharedObjects.length

/-- The object at a position. -/
def object (i : B.Index) : RatedObject := B.surface.sharedObjects[i]

/-- `surfaceBudgetEnabled`: the variable is not set, empty, or starts with a zero. -/
def surfaceBudgetEnabled : Bool :=
  match B.disableVar with
  | none => true
  | some [] => true
  | some (x :: _) => x = '0'

/-- `pathological`: the surface is so large that it is cut first. -/
def pathological : Bool :=
  1200 ≤ B.surface.sharedObjects.length || 50000 ≤ B.surface.conflictingPairCount

/-- `globalCap`: how many objects stay, from the environment or by default. -/
def globalCap : ℕ := envInt B.globalCapVar 300

/-- `perThreadSetCap`: how many objects with the same threads stay. -/
def perThreadSetCap : ℕ := envInt B.perThreadSetCapVar 6

/-- The priority of an object. -/
def score (i : B.Index) : ℤ := objectPriorityScore (some (B.object i)) B.flowPrior

/-- `order`: sorted stably, the highest priority first. -/
def order (objKeep : Finset B.Index) : List B.Index :=
  ranked (fun a b => B.score b < B.score a) objKeep.sort

/-- `ts`: the threads of an object. An object without one is counted under the id `-1`. -/
def threadSet (i : B.Index) : TidSet :=
  let ts := (B.object i).accessingThreadIds
  if ts.toList = [] then ts.insert (-1) else ts

/-- The quotas of the loop. -/
def quota : Quota B.Index TidSet where
  forced i := forceKeepObject (B.object i)
  cls := B.threadSet
  total := B.globalCap
  perClass := B.perThreadSetCap

/-- `reduced`: the objects that stay. -/
def reduced (objKeep : Finset B.Index) : Finset B.Index :=
  (B.quota.run (B.order objKeep)).kept.toFinset

/-- The loop is reached: the budget is on, and the sizes are over the thresholds. -/
def applies (objKeep : Finset B.Index) : Bool :=
  !(!B.surfaceBudgetEnabled || objKeep.card ≤ 80) && B.pathological

/-- `applyCostFirstSurfaceBudget`: what it leaves in `objKeep`. -/
def applyCostFirstSurfaceBudget (objKeep : Finset B.Index) : Finset B.Index :=
  if !B.surfaceBudgetEnabled || objKeep.card ≤ 80 then objKeep
  -- Every other surface keeps all of its objects.
  else if !B.pathological then objKeep
  -- The sets are only swapped if something was left out.
  else if (B.reduced objKeep).card < objKeep.card then B.reduced objKeep
  else objKeep

/-- The objects of a set that are not forced. -/
def budgeted (out : Finset B.Index) : Finset B.Index :=
  out.filter fun i => forceKeepObject (B.object i) = false

/-- What a budget leaves of some objects, and what fills the caps where one is left out. -/
structure SafeSelection (objKeep out : Finset B.Index) : Prop where
  /-- Nothing is added. -/
  subset : out ⊆ objKeep
  /-- What is forced stays. -/
  forced : ∀ i ∈ objKeep, forceKeepObject (B.object i) = true → i ∈ out
  /-- Below a threshold nothing is left out. -/
  unchanged : B.applies objKeep = false → out = objKeep
  /-- The other objects are not more than the global cap. -/
  global : B.applies objKeep = true → (B.budgeted out).card ≤ B.globalCap
  /-- Those with a thread set are not more than the cap of the set. -/
  perThreadSet : B.applies objKeep = true → ∀ ts,
    ((B.budgeted out).filter fun i => B.threadSet i = ts).card ≤ B.perThreadSetCap
  /-- An object is left out if a cap is filled by others whose priority is not lower. -/
  dropped : ∀ i ∈ objKeep, i ∉ out →
    B.globalCap ≤ ((B.budgeted out).filter fun j => B.score i ≤ B.score j).card ∨
      B.perThreadSetCap ≤ ((B.budgeted out).filter fun j =>
        B.threadSet j = B.threadSet i ∧ B.score i ≤ B.score j).card

variable {B} {objKeep : Finset B.Index} {i : B.Index}

@[simp]
theorem mem_order : i ∈ B.order objKeep ↔ i ∈ objKeep := by
  rw [order, mem_ranked, Finset.mem_sort]

theorem nodup_order : (B.order objKeep).Nodup :=
  ranked_perm.nodup_iff.mpr (objKeep.sort_nodup _)

/-- The order is that of the priorities. -/
theorem pairwise_order : (B.order objKeep).Pairwise fun j i => B.score i ≤ B.score j := by
  have hkey : RanksBy (fun i => OrderDual.toDual (B.score i)) fun a b => B.score b < B.score a := by
    intro a b
    rw [decide_eq_true_eq]
    exact OrderDual.toDual_lt_toDual.symm
  refine (pairwise_ranked hkey).imp fun h => ?_
  rwa [decide_eq_false_iff_not, not_lt] at h

/-- What holds of the loop over all objects. -/
theorem inv_order : B.quota.Inv (fun j i => B.score i ≤ B.score j) (B.order objKeep)
    (B.quota.run (B.order objKeep)) := Quota.inv_run pairwise_order

/-- The objects that count and stay are those that count in the list that the loop makes. -/
theorem card_filter_budgeted (p : B.Index → Prop) [DecidablePred p] :
    ((B.budgeted (B.reduced objKeep)).filter p).card =
      (B.quota.run (B.order objKeep)).kept.countP fun i => !B.quota.forced i && p i := by
  have hnodup : (B.quota.run (B.order objKeep)).kept.Nodup :=
    nodup_order.sublist inv_order.sublist
  have hfilter : (B.budgeted (B.reduced objKeep)).filter p =
      ((B.quota.run (B.order objKeep)).kept.filter fun i => !B.quota.forced i && p i).toFinset := by
    ext i
    simp [budgeted, reduced, quota, and_assoc]
  rw [hfilter, List.toFinset_card_of_nodup (hnodup.filter _), List.countP_eq_length_filter]

theorem mem_reduced : i ∈ B.reduced objKeep ↔ i ∈ (B.quota.run (B.order objKeep)).kept :=
  List.mem_toFinset

theorem reduced_subset : B.reduced objKeep ⊆ objKeep := by
  intro i hi
  exact mem_order.mp (inv_order.sublist.subset (mem_reduced.mp hi))

theorem card_budgeted_reduced_le : (B.budgeted (B.reduced objKeep)).card ≤ B.globalCap := by
  have hcard : ((B.budgeted (B.reduced objKeep)).filter fun _ => True).card = _ :=
    card_filter_budgeted fun _ => True
  simp only [Finset.filter_true, decide_true, Bool.and_true] at hcard
  rw [hcard, ← inv_order.charged]
  exact inv_order.charged_le

theorem card_threadSet_reduced_le (ts : TidSet) :
    ((B.budgeted (B.reduced objKeep)).filter fun i => B.threadSet i = ts).card ≤
      B.perThreadSetCap := by
  have hused : (B.quota.run (B.order objKeep)).kept.countP
      (fun i => !B.quota.forced i && decide (B.threadSet i = ts)) =
        (B.quota.run (B.order objKeep)).used ts := (inv_order.used ts).symm
  rw [card_filter_budgeted, hused]
  exact inv_order.used_le ts

/-- The cap that an object met is filled by objects that came before it. -/
theorem filled_of_dropped (hi : i ∈ objKeep) (hnot : i ∉ B.reduced objKeep) :
    B.globalCap ≤
        ((B.budgeted (B.reduced objKeep)).filter fun j => B.score i ≤ B.score j).card ∨
      B.perThreadSetCap ≤ ((B.budgeted (B.reduced objKeep)).filter fun j =>
        B.threadSet j = B.threadSet i ∧ B.score i ≤ B.score j).card := by
  have hfilled := (inv_order.dropped i (mem_order.mpr hi)).resolve_left (mt mem_reduced.mpr hnot)
  rw [card_filter_budgeted, card_filter_budgeted]
  refine hfilled.imp_right fun hclass => hclass.trans_eq ?_
  refine List.countP_congr fun j _ => ?_
  simp only [Bool.and_eq_true, Quota.chargedTo_iff, decide_eq_true_eq, Bool.not_eq_true',
    and_assoc]
  exact Iff.rfl

/-- The loop leaves all objects, or fewer. Where it leaves all, they are not swapped. -/
theorem applyCostFirstSurfaceBudget_of_applies (h : B.applies objKeep = true) :
    B.applyCostFirstSurfaceBudget objKeep = B.reduced objKeep := by
  obtain ⟨hsize, hpath⟩ := (Bool.and_eq_true _ _).mp h
  rw [applyCostFirstSurfaceBudget, if_neg (by simpa using hsize), if_neg (by simpa using hpath)]
  split
  next => rfl
  next hcard => exact (Finset.eq_of_subset_of_card_le reduced_subset (not_lt.mp hcard)).symm

theorem applyCostFirstSurfaceBudget_of_not_applies (h : B.applies objKeep = false) :
    B.applyCostFirstSurfaceBudget objKeep = objKeep := by
  rw [applyCostFirstSurfaceBudget]
  split
  next => rfl
  next hsize =>
    have hpath : B.pathological = false := by
      simpa [applies, hsize] using h
    rw [if_pos (by simp [hpath])]

/-- The budget is a safe selection. -/
theorem safeSelection (B : SurfaceBudget) (objKeep : Finset B.Index) :
    B.SafeSelection objKeep (B.applyCostFirstSurfaceBudget objKeep) := by
  rcases happlies : B.applies objKeep with _ | _
  · rw [applyCostFirstSurfaceBudget_of_not_applies happlies]
    exact
      { subset := Finset.Subset.refl objKeep
        forced := fun i hi _ => hi
        unchanged := fun _ => rfl
        global := fun h => absurd (happlies ▸ h) Bool.false_ne_true
        perThreadSet := fun h => absurd (happlies ▸ h) Bool.false_ne_true
        dropped := fun i hi hnot => absurd hi hnot }
  · rw [applyCostFirstSurfaceBudget_of_applies happlies]
    exact
      { subset := reduced_subset
        forced := fun i hi hforced => mem_reduced.mpr (inv_order.forced i (mem_order.mpr hi) hforced)
        unchanged := fun h => absurd (happlies ▸ h) Bool.false_ne_true.symm
        global := fun _ => card_budgeted_reduced_le
        perThreadSet := fun _ => card_threadSet_reduced_le
        dropped := fun i hi hnot => filled_of_dropped hi hnot }

end SurfaceBudget

end Lace.PhaseB
