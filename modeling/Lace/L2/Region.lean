import Lace.L2.Check

/-!
# Atomic regions and self-races

A conflict with an atomic region is discharged when it is ordered outside the region or when some
step is coordinated with it. One coordinated step does not keep the conflict away from the other
steps. And a node is ordered before itself, also where the two accesses of a pair are one node run
by two instances of a thread.

## Main definitions

* `L2Context.CannotInterleave`: a conflict cannot fall between two steps of a region.

## Main results

* `discharged_region_iff`: when the discharge of a conflict keeps it out of the region;
* `discharged_selfRace_iff`: when the discharge of a self-race rests on a token or a lock.
-/

namespace Lace.L2Context

variable (X : L2Context) (S : Session)

/-- The conflict comes before the first step, after the last one, or is coordinated with every
step. -/
def CannotInterleave (r : NodeReq) (first cnode : NodeId) : Prop :=
  X.outside S first (r.a.getLastD first) cnode = true ∨ ∀ s ∈ r.a, X.covers S r s cnode = true

variable {X S} {tid : Tid} {r : NodeReq} {first cnode : NodeId} {rest : List NodeId}

/-- What discharges a region against a conflict. -/
theorem discharged_mustBeAtomic (hform : r.form = .mustBeAtomic) :
    X.discharged S r (first, cnode) = true ↔
      X.outside S first (r.a.getLastD first) cnode = true ∨
        ∃ s ∈ r.a, X.covers S r s cnode = true := by
  simp only [discharged, hform, Bool.or_eq_true, excluded, List.any_eq_true]

/-- The discharge against a conflict keeps it out of the region exactly when the conflict is
ordered outside, or is coordinated with every step as soon as it is with one. -/
theorem discharged_region_iff (hform : r.form = .mustBeAtomic) (hr : r.a = first :: rest)
    (cnode : NodeId) :
    (X.discharged S r (first, cnode) = true → X.CannotInterleave S r first cnode) ↔
      X.outside S first (r.a.getLastD first) cnode = true ∨
        ((∃ s ∈ first :: rest, X.covers S r s cnode = true) →
          ∀ s ∈ first :: rest, X.covers S r s cnode = true) := by
  rw [discharged_mustBeAtomic hform, CannotInterleave, hr]
  by_cases hout : X.outside S first ((first :: rest).getLastD first) cnode = true
  · exact iff_of_true (fun _ => Or.inl hout) (Or.inl hout)
  · simp only [hout, Bool.false_eq_true, false_or]

/-! ### A region whose steps are excluded one by one -/

/-- Thread 1 requires nodes 1 and 2 to be atomic and excludes thread 2's write, node 3, from the
nodes in `steps`. -/
def excludedSteps (steps : List NodeId) : L2Context where
  contracts tid :=
    if tid = 1 then some ⟨[⟨.mustBeAtomic, [1, 2], [], 0, ""⟩], [⟨.exclude, steps, [], "m", ""⟩]⟩
    else if tid = 2 then some ⟨[], [⟨.exclude, [3], [], "m", ""⟩]⟩
    else none
  object _ := ⟨[⟨1, .read, 1, "", false, ""⟩, ⟨1, .write, 2, "", false, ""⟩,
    ⟨2, .write, 3, "", false, ""⟩], false, ⟨[1, 2], TidSet.sorted_one_two⟩⟩
  objIndex O := if O = 0 then some 0 else none
  ccpg := .ofNodes [1, 2, 3] (fun _ => .assignment) fun _ => false
  hb := ⟨[⟨1, 2, .programOrder, "cfg"⟩]⟩
  env := ⟨none, none, false⟩

/-- The session of threads 1 and 2. -/
def pairSession : Session := ⟨⟨[1, 2], TidSet.sorted_one_two⟩, [0]⟩

/-- With only the first step excluded the checker has no candidate although the write can come
between the two steps. -/
theorem excludedSteps_discharged :
    (excludedSteps [1]).checkRequirements pairSession = [] ∧
      3 ∈ (excludedSteps [1]).conflicts pairSession 1 ⟨.mustBeAtomic, [1, 2], [], 0, ""⟩ ∧
      ¬(excludedSteps [1]).CannotInterleave pairSession ⟨.mustBeAtomic, [1, 2], [], 0, ""⟩ 1 3 := by
  refine ⟨by decide, by decide, ?_⟩
  rintro (hout | hall)
  · exact absurd hout (by decide)
  · exact absurd (hall 2 (by simp)) (by decide)

/-- With both steps excluded the discharge keeps the write out. -/
theorem excludedSteps_cannotInterleave :
    (excludedSteps [1, 2]).CannotInterleave pairSession ⟨.mustBeAtomic, [1, 2], [], 0, ""⟩ 1 3 :=
  (discharged_region_iff rfl rfl 3).mpr (Or.inr fun _ => by decide) (by decide)

/-! ### Two instances of one thread -/

section SelfRace

variable {O : SharedObject} {selfRaceRootTid : Tid} {x : NodeId}

/-- The second instance of the root conflicts at every node where the root writes or frees. -/
theorem mem_conflicts_sibling
    (hobject : X.anchorObject S r = some (O.materializeSibling selfRaceRootTid))
    (hsession : siblingId (O.selfRaceRoot selfRaceRootTid) ∈ S.threads.toList)
    (htid : siblingId (O.selfRaceRoot selfRaceRootTid) ≠ tid) {acc : ThreadAccess}
    (hacc : acc ∈ O.accesses) (hroot : acc.threadId = O.selfRaceRoot selfRaceRootTid)
    (hwrite : acc.accessType = .write ∨ acc.accessType = .free) (hnode : 0 ≤ acc.nodeId) :
    acc.nodeId ∈ X.conflicts S tid r := by
  refine mem_conflicts.mpr ⟨_, hobject, acc.sibling _, ?_, hsession, htid, hwrite, hnode, rfl⟩
  exact SharedObject.mem_accesses_materializeSibling.mpr (Or.inr ⟨acc, hacc, hroot, rfl⟩)

/-- Where the root and its second instance access one node `x`, a pair of a `MustBeMediated`
requirement is always discharged, so that this rests on a token or a lock exactly when one covers
`x`; for an atomic region it does so in addition when nothing discharges `x`. -/
theorem discharged_selfRace_iff
    (hobject : X.anchorObject S r = some (O.materializeSibling selfRaceRootTid))
    (hsession : siblingId (O.selfRaceRoot selfRaceRootTid) ∈ S.threads.toList)
    (htid : siblingId (O.selfRaceRoot selfRaceRootTid) ≠ tid) {acc : ThreadAccess}
    (hacc : acc ∈ O.accesses) (hroot : acc.threadId = O.selfRaceRoot selfRaceRootTid)
    (hwrite : acc.accessType = .write ∨ acc.accessType = .free) (hnode : 0 ≤ acc.nodeId)
    (hx : acc.nodeId = x) :
    (r.form = .mustBeMediated → x ∈ r.a → x ∈ r.b → (x, x) ∈ X.operandPairs S tid r ∧
      ((X.discharged S r (x, x) = true → X.covers S r x x = true) ↔ X.covers S r x x = true)) ∧
    ∀ first rest, r.form = .mustBeAtomic → r.a = first :: rest → x ∈ r.a →
      (first, x) ∈ X.operandPairs S tid r ∧
      ((X.discharged S r (first, x) = true → X.covers S r x x = true) ↔
        X.covers S r x x = true ∨ x ≠ first ∧ x ≠ r.a.getLastD first ∧
          X.outside S first (r.a.getLastD first) x = false ∧
            ∀ s ∈ r.a, X.covers S r s x = false) := by
  constructor
  · intro hform ha hb
    refine ⟨by simpa [operandPairs, hform] using ⟨ha, hb⟩, ?_⟩
    have hdis : X.discharged S r (x, x) = true := by
      simp [discharged, hform, mediated, OrderingEvidence.ordReach_self]
    exact imp_iff_right hdis
  · intro first rest hform hr ha
    have hconf := mem_conflicts_sibling hobject hsession htid hacc hroot hwrite hnode
    refine ⟨by simpa [operandPairs, hform, hr] using hx ▸ hconf, ?_⟩
    rw [discharged_mustBeAtomic hform]
    constructor
    · intro honly
      by_cases hcov : X.covers S r x x = true
      · exact Or.inl hcov
      have hopen : ¬(X.outside S first (r.a.getLastD first) x = true ∨
          ∃ s ∈ r.a, X.covers S r s x = true) := fun h => hcov (honly h)
      obtain ⟨hout, hnone⟩ := not_or.mp hopen
      refine Or.inr ⟨?_, ?_, Bool.eq_false_iff.mpr hout, fun s hs =>
        Bool.eq_false_iff.mpr fun hcov => hnone ⟨s, hs, hcov⟩⟩
      -- an end point of the region is ordered before or after itself
      · rintro rfl
        rw [outside, OrderingEvidence.ordReach_self, Bool.true_or] at hout
        exact hout rfl
      · intro hlast
        rw [outside, ← hlast, OrderingEvidence.ordReach_self, Bool.or_true] at hout
        exact hout rfl
    · rintro (hcov | ⟨-, -, hout, hnone⟩) hdis
      · exact hcov
      · rcases hdis with h | ⟨s, hs, h⟩
        · rw [hout] at h
          cases h
        · rw [hnone s hs] at h
          cases h

/-! ### A write that two instances of a thread make -/

/-- Thread 1 writes node 5, under a lock or not, and requires the write to be mediated against its
second instance and to be atomic. -/
def selfRaceWrite (lock : String) : SharedObject :=
  ⟨[⟨1, .write, 5, "x++", !lock.isEmpty, lock⟩], false, ⟨[1], by simp⟩⟩

/-- The two requirements of `selfRaceWrite`, on object 0. -/
def selfRaceReqs : List NodeReq :=
  [⟨.mustBeMediated, [5], [5], 0, ""⟩, ⟨.mustBeAtomic, [5], [], 0, ""⟩]

/-- The contracts and the object of `selfRaceWrite`. -/
def selfRaceContext (lock : String) : L2Context where
  contracts tid := if tid = 1 then some ⟨selfRaceReqs, []⟩ else none
  object _ := (selfRaceWrite lock).materializeSibling 1
  objIndex O := if O = 0 then some 0 else none
  ccpg := .ofNodes [5] (fun _ => .assignment) fun _ => false
  hb := ⟨[]⟩
  env := ⟨none, none, false⟩

/-- The session of the two instances. -/
def instancesSession : Session := ⟨⟨[1, 1000001], by simp⟩, [0]⟩

/-- Without a lock both requirements are discharged although nothing covers the node. -/
theorem selfRace_discharged :
    (selfRaceContext "").checkRequirements instancesSession = [] ∧
      5 ∈ (selfRaceContext "").conflicts instancesSession 1 ⟨.mustBeAtomic, [5], [], 0, ""⟩ ∧
      ∀ r ∈ selfRaceReqs, (selfRaceContext "").covers instancesSession r 5 5 = false := by
  decide

/-- With a lock the discharge of both rests on the lock. -/
theorem selfRace_locked :
    ((selfRaceContext "m").discharged instancesSession ⟨.mustBeMediated, [5], [5], 0, ""⟩ (5, 5) =
        true →
      (selfRaceContext "m").covers instancesSession ⟨.mustBeMediated, [5], [5], 0, ""⟩ 5 5 =
        true) ∧
    ((selfRaceContext "m").discharged instancesSession ⟨.mustBeAtomic, [5], [], 0, ""⟩ (5, 5) =
        true →
      (selfRaceContext "m").covers instancesSession ⟨.mustBeAtomic, [5], [], 0, ""⟩ 5 5 =
        true) := by
  constructor
  · exact (((@discharged_selfRace_iff _ _ 1 _ (selfRaceWrite "m") 1 _
      rfl (by decide) (by decide) _ List.mem_cons_self rfl (Or.inl rfl) (by decide) rfl).1 rfl
        (by decide) (by decide)).2).mpr (by decide)
  · exact (((@discharged_selfRace_iff _ _ 1 _ (selfRaceWrite "m") 1 _
      rfl (by decide) (by decide) _ List.mem_cons_self rfl (Or.inl rfl) (by decide) rfl).2 5 [] rfl
        rfl (by decide)).2).mpr (Or.inl (by decide))

end SelfRace

end Lace.L2Context
