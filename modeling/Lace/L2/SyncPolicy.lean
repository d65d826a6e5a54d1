import Lace.L2.Check

/-!
# The structural part of the happens-before graph

The `StructuralOnly` policy decides which edges count as synchronization, but every edge is walked
on the way to one, and `cfReach` walks all edges. The checker therefore agrees with the checker on
the structural part exactly when no order runs over the other edges where it matters: at the first
pair of a requirement that the structural part leaves open.

## Main definitions

* `L2Context.structural`: the context without the edges that are not structural;
* `L2Context.ordered`: the order that the discharge condition of a pair asks for.

## Main results

* `checkRequirements_structural_iff`: when the other edges take no part.
-/

namespace Lace

section Lists

variable {α β : Type*} {f g : α → Option β} {l : List α}

theorem length_filterMap_le_of_imp (h : ∀ x ∈ l, g x = none → f x = none) :
    (l.filterMap f).length ≤ (l.filterMap g).length := by
  induction l with
  | nil => exact le_rfl
  | cons x l ih =>
      have ih := ih fun y hy => h y (List.mem_cons_of_mem _ hy)
      cases hg : g x with
      | none => simpa [h x (by simp) hg, hg] using ih
      | some y =>
          cases hf : f x with
          | none =>
              simp only [List.filterMap_cons, hf, hg, List.length_cons]
              exact Nat.le_succ_of_le ih
          | some z => simpa [hf, hg] using ih

/-- Two functions, one of them defined wherever the other is, have the same values on a list only
if they agree on it. -/
theorem filterMap_eq_iff_of_imp (h : ∀ x ∈ l, g x = none → f x = none) :
    l.filterMap f = l.filterMap g ↔ ∀ x ∈ l, f x = g x := by
  refine ⟨fun heq => ?_, fun hall => List.filterMap_congr hall⟩
  induction l with
  | nil => exact fun x hx => absurd hx List.not_mem_nil
  | cons x l ih =>
      have htail := fun y hy => h y (List.mem_cons_of_mem x hy)
      rw [List.forall_mem_cons]
      cases hg : g x with
      | none =>
          have hf : f x = none := h x (by simp) hg
          simp only [List.filterMap_cons, hf, hg] at heq
          exact ⟨hf, ih htail heq⟩
      | some y =>
          cases hf : f x with
          | none =>
              -- the other list is longer
              have hle := length_filterMap_le_of_imp htail
              simp only [List.filterMap_cons, hf, hg] at heq
              rw [heq, List.length_cons] at hle
              exact absurd hle (Nat.not_succ_le_self _)
          | some z =>
              simp only [List.filterMap_cons, hf, hg, List.cons.injEq] at heq
              exact ⟨by rw [heq.1], ih htail heq.2⟩

end Lists

namespace L2Context

variable (X : L2Context) (S : Session)

/-- The context without the edges that `StructuralOnly` excludes. -/
def structural : L2Context := { X with hb := X.hb.structural }

/-- The order that the discharge condition of a pair asks for. -/
def ordered (r : NodeReq) (p : NodeId × NodeId) : Bool :=
  match r.form with
  | .mustPrecede => (X.evidence S).ordReach p.1 p.2
  | .mustBeMediated => (X.evidence S).ordReach p.1 p.2 || (X.evidence S).ordReach p.2 p.1
  | .mustBeAtomic => X.outside S p.1 (r.a.getLastD p.1) p.2

/-- The coordination that it asks for otherwise. -/
def coordinated (r : NodeReq) (p : NodeId × NodeId) : Bool :=
  match r.form with
  | .mustPrecede => false
  | .mustBeMediated => X.covers S r p.1 p.2
  | .mustBeAtomic => X.excluded S r p.2

variable {X S} {tid : Tid} {r : NodeReq} {p : NodeId × NodeId}

theorem discharged_eq : X.discharged S r p = (X.ordered S r p || X.coordinated S r p) := by
  unfold discharged ordered coordinated
  cases r.form with
  | mustPrecede => exact (Bool.or_false _).symm
  | mustBeMediated => rfl
  | mustBeAtomic => rfl

/-- The tokens and locks are the same on the structural part. -/
theorem coordinated_structural : X.structural.coordinated S r p = X.coordinated S r p := rfl

theorem evidence_structural_le : (X.structural.evidence S).Le (X.evidence S) where
  ccpg_eq := rfl
  env_eq := rfl
  maxDepth_eq := rfl
  hb_subset _ he := (List.mem_filter.mp he).1
  guarEdges_subset := List.Subset.refl _
  exclExclusive_subset := List.Subset.refl _
  exclShared_subset := List.Subset.refl _
  atomicTok_subset := List.Subset.refl _

/-- What the structural part discharges, the whole graph discharges. -/
theorem discharged_of_structural (h : X.structural.discharged S r p = true) :
    X.discharged S r p = true :=
  discharged_mono (X := X.structural) (Y := X) (T := S) evidence_structural_le rfl h

/-- The candidate of a pair names the pair. -/
theorem candidate_inj {q : NodeId × NodeId} (h : X.candidate S tid r p = X.candidate S tid r q) :
    p = q :=
  Prod.ext (congrArg L2Candidate.aNode h) (congrArg L2Candidate.bNode h)

/-- The two checks of a requirement agree exactly when the first pair that the structural part
leaves open is not ordered over other edges. -/
theorem checkRequirement_structural_iff :
    X.checkRequirement S tid r = X.structural.checkRequirement S tid r ↔
      ∀ p, (X.operandPairs S tid r).find? (fun p => !X.structural.discharged S r p) = some p →
        X.ordered S r p = false := by
  have hpairs : X.structural.operandPairs S tid r = X.operandPairs S tid r := rfl
  have hcand : X.structural.candidate S tid r = X.candidate S tid r := rfl
  unfold checkRequirement
  rw [hpairs, hcand]
  -- a pair that is open on the structural part is discharged over other edges or not at all
  have hopen : ∀ p, X.structural.discharged S r p = false →
      X.discharged S r p = X.ordered S r p := by
    intro p hp
    rw [discharged_eq, coordinated_structural, Bool.or_eq_false_iff] at hp
    rw [discharged_eq, hp.2, Bool.or_false]
  cases hfind : (X.operandPairs S tid r).find? (fun p => !X.structural.discharged S r p) with
  | none =>
      refine iff_of_true ?_ nofun
      rw [List.find?_eq_none] at hfind
      have hnone : (X.operandPairs S tid r).find? (fun p => !X.discharged S r p) = none := by
        rw [List.find?_eq_none]
        intro p hp
        have hdis : X.structural.discharged S r p = true := by simpa using hfind p hp
        simp [discharged_of_structural hdis]
      rw [hnone]
  | some p =>
      have hp : X.structural.discharged S r p = false := by simpa using List.find?_some hfind
      obtain ⟨-, as, bs, hsplit, has⟩ := List.find?_eq_some_iff_append.mp hfind
      constructor
      · rintro heq q hq
        obtain rfl := Option.some.inj hq
        -- the pair is open on the whole graph too
        obtain ⟨q, hfull, hcandq⟩ := Option.map_eq_some_iff.mp heq
        have hqopen : X.discharged S r q = false := by simpa using List.find?_some hfull
        rwa [candidate_inj hcandq, hopen p hp] at hqopen
      · intro hord
        have hpopen : X.discharged S r p = false := (hopen p hp).trans (hord p rfl)
        have hfull : (X.operandPairs S tid r).find? (fun p => !X.discharged S r p) = some p := by
          rw [List.find?_eq_some_iff_append]
          refine ⟨by simp [hpopen], as, bs, hsplit, fun q hq => ?_⟩
          have hdis : X.structural.discharged S r q = true := by simpa using has q hq
          simp [discharged_of_structural hdis]
        rw [hfull]

/-- The candidates, requirement by requirement. -/
theorem checkRequirements_eq_filterMap : X.checkRequirements S =
    (S.threads.toList.flatMap fun tid => (X.contracts.nodeReqs tid).map (tid, ·)).filterMap
      fun q => X.checkRequirement S q.1 q.2 := by
  rw [checkRequirements, List.filterMap_flatMap]
  refine List.flatMap_congr fun tid _ => ?_
  rw [List.filterMap_map]
  rfl

/-- The candidates are those of the structural part exactly when no requirement has an order over
other edges at the first pair that the structural part leaves open. -/
theorem checkRequirements_structural_iff :
    X.checkRequirements S = X.structural.checkRequirements S ↔
      ∀ tid ∈ S.threads.toList, ∀ r ∈ X.contracts.nodeReqs tid, ∀ p,
        (X.operandPairs S tid r).find? (fun p => !X.structural.discharged S r p) = some p →
          X.ordered S r p = false := by
  have himp : ∀ q : Tid × NodeReq, X.structural.checkRequirement S q.1 q.2 = none →
      X.checkRequirement S q.1 q.2 = none := by
    intro q hq
    rw [checkRequirement_eq_none_iff] at hq ⊢
    exact fun p hp => discharged_of_structural (hq p hp)
  rw [checkRequirements_eq_filterMap, checkRequirements_eq_filterMap]
  show List.filterMap _ _ = (S.threads.toList.flatMap fun tid =>
    (X.contracts.nodeReqs tid).map (tid, ·)).filterMap _ ↔ _
  rw [filterMap_eq_iff_of_imp fun q _ => himp q]
  simp only [List.forall_mem_flatMap, List.forall_mem_map, checkRequirement_structural_iff]

/-! ### A completion on the way to a fork -/

/-- Node 1 signals a completion after which node 2 forks the thread of node 3. -/
def signalThenFork : L2Context where
  contracts tid :=
    if tid = 1 then some ⟨[⟨.mustPrecede, [1], [3], 0, ""⟩], []⟩ else none
  object _ := ⟨[], false, ⟨[], TidSet.sorted_nil⟩⟩
  objIndex O := some O
  ccpg := .ofNodes [1, 2, 3] (fun _ => .assignment) fun _ => false
  hb := ⟨[⟨1, 2, .completion, "complete->after_wait"⟩, ⟨2, 3, .forkToEntry, "fork"⟩]⟩
  env := ⟨none, none, false⟩

/-- The completion edge discharges the requirement, as a step on the way to the fork edge. -/
theorem signalThenFork_checkRequirements_ne :
    signalThenFork.checkRequirements ⟨⟨[1], by simp⟩, [0]⟩ ≠
      signalThenFork.structural.checkRequirements ⟨⟨[1], by simp⟩, [0]⟩ := by
  decide

end L2Context

end Lace
