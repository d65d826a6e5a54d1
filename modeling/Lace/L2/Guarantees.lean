import Lace.L2.Check

/-!
# Adding guarantees

A guarantee only adds evidence, and the guarantees of a thread count in the sessions of that
thread only.

## Main results

* `evidence_le_of_adds`: added guarantees add evidence;
* `checkRequirements_of_adds`: they keep requirements discharged, and those of threads outside a
  session do not change its candidates.
-/

namespace Lace

/-- `C'` has the requirements of `C`, and in every thread the guarantees of `C` and more. -/
structure ContractMap.Adds (C C' : ContractMap) : Prop where
  nodeReqs_eq : ∀ tid, C'.nodeReqs tid = C.nodeReqs tid
  nodeGuars_subset : ∀ tid, C.nodeGuars tid ⊆ C'.nodeGuars tid

namespace L2Context

/-- The context with other contracts. -/
def withContracts (X : L2Context) (C : ContractMap) : L2Context := { X with contracts := C }

variable (X : L2Context) (S : Session) {C : ContractMap}

/-- Added guarantees add evidence. -/
theorem evidence_le_of_adds (hadds : X.contracts.Adds C) :
    (X.evidence S).Le ((X.withContracts C).evidence S) := by
  have hguar : ∀ g ∈ guarantees S.threads X.contracts, g ∈ guarantees S.threads C := by
    intro g hg
    obtain ⟨tid, htid, hg⟩ := List.mem_flatMap.mp hg
    exact List.mem_flatMap.mpr ⟨tid, htid, hadds.nodeGuars_subset tid hg⟩
  have hflat : ∀ {α : Type} (f : NodeGuar → List α),
      (guarantees S.threads X.contracts).flatMap f ⊆ (guarantees S.threads C).flatMap f := by
    intro α f x hx
    obtain ⟨g, hg, hx⟩ := List.mem_flatMap.mp hx
    exact List.mem_flatMap.mpr ⟨g, hguar g hg, hx⟩
  exact ⟨rfl, rfl, rfl, fun _ h => h, hflat _, hflat _, hflat _, hflat _⟩

/-- Guarantees of threads outside the session do not change the evidence. -/
theorem evidence_eq_of_outside (hsame : ∀ tid ∈ S.threads.toList,
    C.nodeGuars tid = X.contracts.nodeGuars tid) :
    (X.withContracts C).evidence S = X.evidence S := by
  have hguar : guarantees S.threads C = guarantees S.threads X.contracts :=
    List.flatMap_congr hsame
  show buildEvidence X.ccpg S.threads C X.hb X.env = _
  rw [buildEvidence, hguar]
  rfl

/-- Under added guarantees every discharged requirement stays discharged, and when they belong to
threads outside the session the candidates are the same. -/
theorem checkRequirements_of_adds (hadds : X.contracts.Adds C) :
    (∀ tid ∈ S.threads.toList, ∀ r ∈ X.contracts.nodeReqs tid,
      X.checkRequirement S tid r = none →
        (X.withContracts C).checkRequirement S tid r = none) ∧
    ((∀ tid ∈ S.threads.toList, C.nodeGuars tid = X.contracts.nodeGuars tid) →
      (X.withContracts C).checkRequirements S = X.checkRequirements S) := by
  constructor
  · intro tid _ r _ hnone
    rw [checkRequirement_eq_none_iff] at hnone ⊢
    intro p hp
    exact discharged_mono (X.evidence_le_of_adds S hadds) rfl (hnone p hp)
  · intro hsame
    -- Nothing that the check of the session reads has changed.
    have hev : (X.withContracts C).evidence S = X.evidence S := X.evidence_eq_of_outside S hsame
    have hdischarged : ∀ r p, (X.withContracts C).discharged S r p = X.discharged S r p := by
      intro r p
      simp only [discharged, mediated, outside, excluded, covers, hev]
      rfl
    have hcheck : ∀ tid r,
        (X.withContracts C).checkRequirement S tid r = X.checkRequirement S tid r := by
      intro tid r
      simp only [checkRequirement, hdischarged]
      rfl
    unfold checkRequirements
    refine List.flatMap_congr fun tid _ => ?_
    show (C.nodeReqs tid).filterMap _ = _
    rw [hadds.nodeReqs_eq tid]
    exact List.filterMap_congr fun r _ => hcheck tid r

/-! ### An order guaranteed by one thread -/

/-- Thread 1 requires that node 1 precedes node 2 and guarantees it. -/
def orderedPair : L2Context where
  contracts tid :=
    if tid = 1 then some ⟨[⟨.mustPrecede, [1], [2], 0, ""⟩], [⟨.order, [1], [2], "", ""⟩]⟩ else none
  object _ := ⟨[], false, ⟨[], TidSet.sorted_nil⟩⟩
  objIndex O := some O
  ccpg := .ofNodes [1, 2, 3] (fun _ => .assignment) fun _ => false
  hb := ⟨[]⟩
  env := ⟨none, none, false⟩

/-- The contracts of `orderedPair` and a guarantee of thread 7. -/
def orderedPairAnd7 : ContractMap := fun tid =>
  if tid = 7 then some ⟨[], [⟨.order, [2], [3], "", ""⟩]⟩ else orderedPair.contracts tid

/-- The added guarantee keeps the requirement discharged and the candidates as they are. -/
theorem orderedPair_and7 :
    (orderedPair.withContracts orderedPairAnd7).checkRequirement
        ⟨⟨[1, 2], TidSet.sorted_one_two⟩, [0]⟩ 1 ⟨.mustPrecede, [1], [2], 0, ""⟩ = none ∧
      (orderedPair.withContracts orderedPairAnd7).checkRequirements
          ⟨⟨[1, 2], TidSet.sorted_one_two⟩, [0]⟩ =
        orderedPair.checkRequirements ⟨⟨[1, 2], TidSet.sorted_one_two⟩, [0]⟩ := by
  have hadds : orderedPair.contracts.Adds orderedPairAnd7 := by
    constructor <;> intro tid <;> by_cases h7 : tid = 7
    · subst h7
      rfl
    · simp [ContractMap.nodeReqs, orderedPairAnd7, h7]
    · subst h7
      exact List.nil_subset _
    · simp [ContractMap.nodeGuars, orderedPairAnd7, h7]
  obtain ⟨hmono, hsame⟩ :=
    orderedPair.checkRequirements_of_adds ⟨⟨[1, 2], TidSet.sorted_one_two⟩, [0]⟩ hadds
  refine ⟨hmono 1 (by simp) _ (by decide) (by decide), hsame ?_⟩
  decide

end L2Context

end Lace
