import Lace.L2.Check

/-!
# Requirements across sessions

The session loop checks all requirements of a thread in every session of the thread. In a session
without the object of a requirement the object's locks and conflicts are missing, and the evidence
is that of other threads. The requirement stays local to the session of its object exactly when
the evidence of the other sessions discharges it without the object.

## Main definitions

* `L2Context.sessionLoop`: the candidates of a run;
* `L2Context.SessionLocal`: what a requirement may contribute to a run;
* `L2Context.DischargedWithout`: the discharge condition without the object.

## Main results

* `sessionLocal_iff`: when a requirement is local to the session of its object.
-/

namespace Lace

/-- `objIndex` of a surface with `n` objects: the position of an object. -/
def surfaceIndex (n : ℕ) (O : ObjectRef) : Option ℤ := if O < n then some O else none

theorem eq_of_surfaceIndex {n : ℕ} {O O' : ObjectRef} (h : surfaceIndex n O' = some (O : ℤ)) :
    O' = O := by
  unfold surfaceIndex at h
  split_ifs at h
  exact Int.ofNat_inj.mp (Option.some.inj h)

/-- Two sessions have no object in common, as `buildBudgetedSessions` makes them. -/
def Session.Disjoint (S T : Session) : Prop := ∀ O ∈ S.objects, O ∉ T.objects

instance : Std.Symm Session.Disjoint := ⟨fun _ _ h O hO hO' => h O hO' hO⟩

namespace L2Context

variable (X : L2Context)

/-- The loop over the sessions: the candidates of all of them. -/
def sessionLoop (sessions : List Session) : List L2Candidate :=
  sessions.flatMap X.checkRequirements

/-- The session has a candidate for requirement `r` of thread `tid`. -/
def produces (tid : Tid) (r : NodeReq) (S : Session) : Bool :=
  decide (tid ∈ S.threads.toList) && (X.checkRequirement S tid r).isSome

/-- A requirement on object `O` has one candidate at most in the whole run, only from the session
of `O`, and none if it is discharged there. -/
structure SessionLocal (sessions : List Session) (tid : Tid) (r : NodeReq) (O : ObjectRef) :
    Prop where
  /-- There is one candidate at most. -/
  once : (sessions.filter (X.produces tid r)).length ≤ 1
  /-- It comes from the session of the object. -/
  own : ∀ S ∈ sessions, X.produces tid r S = true → O ∈ S.objects
  /-- There is none if the session of the object discharges the requirement. -/
  discharged : ∀ S ∈ sessions, O ∈ S.objects → X.checkRequirement S tid r = none →
    ∀ T ∈ sessions, X.produces tid r T = false

/-- The discharge condition in a session that does not have the object. -/
def DischargedWithout (S : Session) (r : NodeReq) : Prop :=
  match r.form with
  | .mustPrecede => ∀ a ∈ r.a, ∀ b ∈ r.b, (X.evidence S).ordReach a b = true
  | .mustBeMediated => ∀ a ∈ r.a, ∀ b ∈ r.b, (X.evidence S).ordReach a b = true ∨
      (X.evidence S).ordReach b a = true ∨ (X.evidence S).commonExclusion a b = true ∨
        (X.evidence S).atomicCompatible a b = true
  | .mustBeAtomic => True

variable {X} {sessions : List Session} {S : Session} {tid : Tid} {r : NodeReq} {O : ObjectRef}
  {n : ℕ}

/-- Every candidate of a run comes from a session that has one for the requirement. -/
theorem mem_sessionLoop {c : L2Candidate} : c ∈ X.sessionLoop sessions ↔
    ∃ S ∈ sessions, ∃ tid, ∃ r ∈ X.contracts.nodeReqs tid, X.produces tid r S = true ∧
      X.checkRequirement S tid r = some c := by
  simp only [sessionLoop, List.mem_flatMap, mem_checkRequirements, produces, Bool.and_eq_true,
    decide_eq_true_eq]
  constructor
  · rintro ⟨S, hS, tid, htid, r, hr, hc⟩
    exact ⟨S, hS, tid, r, hr, ⟨htid, by rw [hc]; rfl⟩, hc⟩
  · rintro ⟨S, hS, tid, r, hr, ⟨htid, -⟩, hc⟩
    exact ⟨S, hS, tid, htid, r, hr, hc⟩

/-- A session without the object finds no object for the requirement. -/
theorem anchorObject_eq_none (hindex : X.objIndex = surfaceIndex n) (hr : r.objectId = O)
    (hO : O ∉ S.objects) : X.anchorObject S r = none := by
  have hnone : X.objById S r.objectId = none := by
    rw [objById, List.find?_eq_none]
    intro O' hO' heq
    rw [decide_eq_true_eq, hindex, hr] at heq
    exact hO (eq_of_surfaceIndex heq ▸ List.mem_reverse.mp hO')
  simp [anchorObject, anchor, hnone]

/-- What the check of the requirement comes down to there. -/
theorem checkRequirement_without_iff (hindex : X.objIndex = surfaceIndex n)
    (hr : r.objectId = O) (hO : O ∉ S.objects) :
    X.checkRequirement S tid r = none ↔ X.DischargedWithout S r := by
  have hobject : X.anchorObject S r = none := anchorObject_eq_none hindex hr hO
  rw [checkRequirement_eq_none_iff, DischargedWithout]
  cases hform : r.form with
  | mustPrecede =>
      simp only [operandPairs, hform, List.forall_mem_flatMap, List.forall_mem_map, discharged]
  | mustBeMediated =>
      simp only [operandPairs, hform, List.forall_mem_flatMap, List.forall_mem_map, discharged,
        mediated, covers, hobject, sameLockCovers, Bool.or_eq_true, Bool.false_eq_true, or_false,
        or_assoc]
  | mustBeAtomic => cases hra : r.a <;> simp [operandPairs, hform, hra, conflicts, hobject]

/-- Two sessions of a run that have the object are the same one. -/
theorem length_filter_le_one {p : Session → Bool}
    (hdisjoint : sessions.Pairwise Session.Disjoint)
    (hp : ∀ S ∈ sessions, p S = true → O ∈ S.objects) : (sessions.filter p).length ≤ 1 := by
  have hall : ∀ S ∈ sessions.filter p, O ∈ S.objects := fun S hS =>
    hp S (List.mem_filter.mp hS).1 (List.mem_filter.mp hS).2
  have hpair := hdisjoint.filter p
  generalize sessions.filter p = l at hall hpair
  match l with
  | [] => exact Nat.zero_le 1
  | [_] => exact le_rfl
  | S :: T :: _ =>
      have hno : O ∉ T.objects :=
        (List.pairwise_cons.mp hpair).1 T (by simp) O (hall S (by simp))
      exact absurd (hall T (by simp)) hno

/-- A requirement is local to the session of its object exactly when every other session of its
thread discharges it without the object. -/
theorem sessionLocal_iff (hindex : X.objIndex = surfaceIndex n) (hr : r.objectId = O)
    (hdisjoint : sessions.Pairwise Session.Disjoint) :
    X.SessionLocal sessions tid r O ↔
      ∀ S ∈ sessions, tid ∈ S.threads.toList → O ∉ S.objects → X.DischargedWithout S r := by
  constructor
  · intro hlocal S hS htid hO
    rw [← checkRequirement_without_iff hindex hr hO]
    by_contra hsome
    refine hO (hlocal.own S hS ?_)
    rw [produces, decide_eq_true htid, Bool.true_and]
    exact Option.isSome_iff_ne_none.mpr hsome
  · intro hwithout
    have hown : ∀ S ∈ sessions, X.produces tid r S = true → O ∈ S.objects := by
      intro S hS hprod
      by_contra hO
      rw [produces, Bool.and_eq_true, decide_eq_true_eq] at hprod
      have hnone : X.checkRequirement S tid r = none :=
        (checkRequirement_without_iff hindex hr hO).mpr (hwithout S hS hprod.1 hO)
      rw [hnone] at hprod
      exact Bool.false_ne_true hprod.2
    refine ⟨length_filter_le_one hdisjoint hown, hown, fun S hS hO hnone T hT => ?_⟩
    by_contra hprod
    rw [Bool.not_eq_false] at hprod
    -- a session with a candidate has the object, so it is the session that discharges
    have hTS : T = S := by
      by_contra hne
      exact hdisjoint.forall hT hS hne O (hown T hT hprod) hO
    rw [hTS, produces, hnone] at hprod
    simp at hprod

/-! ### An order that another session does not have -/

/-- Thread 1 requires an order on object 0 that thread `t` guarantees. -/
def remoteOrder (t : Tid) : L2Context where
  contracts tid :=
    some ⟨if tid = 1 then [⟨.mustPrecede, [1], [2], 0, ""⟩] else [],
      if tid = t then [⟨.order, [1], [2], "", ""⟩] else []⟩
  object _ := ⟨[], false, ⟨[], TidSet.sorted_nil⟩⟩
  objIndex := surfaceIndex 2
  ccpg := .ofNodes [1, 2] (fun _ => .assignment) fun _ => false
  hb := ⟨[]⟩
  env := ⟨none, none, false⟩

/-- Threads 1 and 2 share object 0, threads 1 and 3 share object 1. -/
def twoSessions : List Session :=
  [⟨⟨[1, 2], TidSet.sorted_one_two⟩, [0]⟩, ⟨⟨[1, 3], by simp⟩, [1]⟩]

/-- The session of object 1 does not have the guarantee of thread 2, and reports a requirement
that the session of object 0 discharges. -/
theorem remoteOrder_not_sessionLocal :
    ¬(remoteOrder 2).SessionLocal twoSessions 1 ⟨.mustPrecede, [1], [2], 0, ""⟩ 0 := by
  intro hlocal
  have hmem := hlocal.own ⟨⟨[1, 3], by simp⟩, [1]⟩ (by decide) (by decide)
  exact absurd hmem (by decide)

/-- The guarantee of thread 1 itself counts in all of its sessions. -/
theorem remoteOrder_sessionLocal :
    (remoteOrder 1).SessionLocal twoSessions 1 ⟨.mustPrecede, [1], [2], 0, ""⟩ 0 :=
  (sessionLocal_iff rfl rfl (by simp [twoSessions, Session.Disjoint])).mpr (by
    simp only [DischargedWithout]
    decide)

end L2Context

end Lace
